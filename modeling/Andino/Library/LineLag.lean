import Andino.Library.LineRpc

/-!
# How far reads lag behind

The symbols that the client has not made a line of yet, those it has abandoned included,
are the answers to the requests behind its last completed read, one after the other. So
a completed read is what abandoned reads have left of the answer to an earlier request:
earlier by the number of reads that were given up.
-/
namespace LineRpc

variable {κ β ι : Type}

/-- The symbols of the reads given up since the last completed one. -/
def leftover (out : List (Outcome κ β ι)) : List (β × Origin ι) :=
  out.foldl (fun line r => if r.complete then [] else line ++ r.line) []

theorem leftover_concat (out : List (Outcome κ β ι)) (r : Outcome κ β ι) :
    leftover (out ++ [r]) = if r.complete then [] else leftover out ++ r.line := by
  simp [leftover]

/-- All requests sent so far. -/
def requests (out : List (Outcome κ β ι)) (s : State κ β ι) : List κ :=
  out.map (·.request) ++ (s.waiting.map Prod.fst).toList

/-- The symbols are the answer to this request under this number. -/
def AnswerTo (v : Server κ β ι) (k : κ) (n : Nat) (symbols : List (β × Origin ι)) : Prop :=
  ∃ i body, v.Answers k i body ∧ symbols = tagged ⟨n, i⟩ (body ++ [v.terminator])

/-- The answers to consecutive requests, the first of which has this number. -/
def AnswersFrom (v : Server κ β ι) : Nat → List κ → List (List (β × Origin ι)) → Prop
  | _, [], answers => answers = []
  | n, k :: ks, answers =>
    ∃ a rest, answers = a :: rest ∧ AnswerTo v k n a ∧ AnswersFrom v (n + 1) ks rest

theorem AnswersFrom.concat {v : Server κ β ι} {n : Nat} {ks : List κ}
    {answers : List (List (β × Origin ι))} {k : κ} {a : List (β × Origin ι)}
    (h : AnswersFrom v n ks answers) (ha : AnswerTo v k (n + ks.length) a) :
    AnswersFrom v n (ks ++ [k]) (answers ++ [a]) := by
  induction ks generalizing n answers with
  | nil =>
    obtain rfl : answers = [] := h
    exact ⟨a, [], rfl, ha, rfl⟩
  | cons k' ks ih =>
    obtain ⟨a', rest, rfl, ha', hrest⟩ := h
    refine ⟨a', rest ++ [a], rfl, ha', ih hrest ?_⟩
    rw [List.length_cons] at ha
    rwa [Nat.add_assoc, Nat.add_comm 1]

/-- A line ends at the first terminator. -/
theorem split_terminator {T : β} {u x rest y : List (β × Origin ι)} {b c : β × Origin ι}
    (h : u ++ b :: rest = x ++ c :: y) (hu : ∀ p ∈ u, p.1 ≠ T) (hx : ∀ p ∈ x, p.1 ≠ T)
    (hb : b.1 = T) (hc : c.1 = T) : u = x ∧ b = c ∧ rest = y := by
  rcases List.append_eq_append_iff.mp h with ⟨a, rfl, ha⟩ | ⟨a, rfl, ha⟩
  · cases a with
    | nil =>
      obtain ⟨rfl, rfl⟩ := List.cons.inj ha
      exact ⟨by simp, rfl, rfl⟩
    | cons p a =>
      obtain ⟨rfl, -⟩ := List.cons.inj ha
      exact absurd hb (hx b (by simp))
  · cases a with
    | nil =>
      obtain ⟨rfl, rfl⟩ := List.cons.inj ha
      exact ⟨by simp, rfl, rfl⟩
    | cons p a =>
      obtain ⟨rfl, -⟩ := List.cons.inj ha
      exact absurd hc (hu c (by simp))

/-- A completed read, after the parts of its line that were given up, is the answer to the
request whose turn it is. -/
def Remainder (v : Server κ β ι) (pre : List (Outcome κ β ι)) (r : Outcome κ β ι) : Prop :=
  r.number = pre.length + 1 ∧
    (r.complete = true → ∃ k, ((pre ++ [r]).map (·.request))[done pre]? = some k ∧
      AnswerTo v k (done pre + 1) (leftover pre ++ r.line))

/-- The symbols in transit are the answers that no completed read has taken. -/
structure Lagging (v : Server κ β ι) (out : List (Outcome κ β ι)) (s : State κ β ι) : Prop where
  sent : (requests out s).length = s.sent
  handled_le : s.handled ≤ s.sent
  done_le : done out ≤ s.handled
  queue : s.queue = (requests out s).drop s.handled
  plain : ∀ p ∈ leftover out ++ (s.waiting.map Prod.snd).getD [], p.1 ≠ v.terminator
  transit : ∃ answers,
    AnswersFrom v (done out + 1) (((requests out s).take s.handled).drop (done out)) answers ∧
    leftover out ++ (s.waiting.map Prod.snd).getD [] ++ s.replies = answers.flatten
  outcomes : EachAfter (Remainder v) out

theorem lagging_initial (v : Server κ β ι) : Lagging v [] initial where
  sent := rfl
  handled_le := Nat.le_refl 0
  done_le := Nat.le_refl 0
  queue := rfl
  plain := by simp [leftover, initial]
  transit := ⟨[], rfl, rfl⟩
  outcomes := eachAfter_nil _

/-- Lists that start with the same elements have the same start. -/
theorem getElem?_of_drop_take {α : Type} {l ks : List α} {k : α} {m n : Nat}
    (h : (l.take n).drop m = k :: ks) : l[m]? = some k ∧ m < n := by
  have hget : (l.take n)[m]? = some k := by
    rw [← List.head?_drop, h]
    rfl
  have hlt : m < (l.take n).length := by
    by_contra hge
    rw [List.getElem?_eq_none (Nat.le_of_not_lt hge)] at hget
    exact absurd hget (by simp)
  rw [List.length_take] at hlt
  rw [List.getElem?_take_of_lt (by omega)] at hget
  exact ⟨hget, by omega⟩

theorem Lagging.send {v : Server κ β ι} {out : List (Outcome κ β ι)} {s : State κ β ι}
    (h : Lagging v out s) (k : κ) (hw : s.waiting = none) :
    Lagging v out
      { s with waiting := some (k, []), queue := s.queue ++ [k], sent := s.sent + 1 } := by
  obtain ⟨hsent, hle, hdone, hqueue, hplain, ⟨answers, hfrom, htransit⟩, hout⟩ := h
  have hreq : requests out
      { s with waiting := some (k, []), queue := s.queue ++ [k], sent := s.sent + 1 } =
      requests out s ++ [k] := by
    simp [requests, hw]
  rw [hw] at hplain htransit
  refine ⟨?_, by dsimp only; omega, hdone, ?_, hplain, ⟨answers, ?_, htransit⟩, hout⟩
  · rw [hreq, List.length_append, hsent]
    rfl
  · rw [hreq, List.drop_append_of_le_length (hle.trans_eq hsent.symm), hqueue]
  · rw [hreq, List.take_append_of_le_length (hle.trans_eq hsent.symm)]
    exact hfrom

theorem Lagging.handle {v : Server κ β ι} {out : List (Outcome κ β ι)} {s : State κ β ι}
    (h : Lagging v out s) {k : κ} {queue : List κ} {i : ι} {body : List β}
    (hq : s.queue = k :: queue) (ha : v.Answers k i body) :
    Lagging v out
      { s with
        queue := queue
        replies := s.replies ++ tagged ⟨s.handled + 1, i⟩ (body ++ [v.terminator])
        handled := s.handled + 1 } := by
  obtain ⟨hsent, hle, hdone, hqueue, hplain, ⟨answers, hfrom, htransit⟩, hout⟩ := h
  rw [hq] at hqueue
  have hlt : s.handled < (requests out s).length := by
    by_contra hge
    rw [List.drop_of_length_le (Nat.le_of_not_lt hge)] at hqueue
    exact absurd hqueue (by simp)
  rw [List.drop_eq_getElem_cons hlt, List.cons.injEq] at hqueue
  obtain ⟨hget, hrest⟩ := hqueue
  refine ⟨hsent, by dsimp only; omega, by dsimp only; omega, hrest, hplain,
    ⟨answers ++ [tagged ⟨s.handled + 1, i⟩ (body ++ [v.terminator])], ?_, ?_⟩, hout⟩
  · change AnswersFrom v (done out + 1)
      (((requests out s).take (s.handled + 1)).drop (done out)) _
    rw [List.take_add_one, List.getElem?_eq_getElem hlt, ← hget, Option.toList_some,
      List.drop_append_of_le_length (by rw [List.length_take]; omega)]
    apply hfrom.concat
    refine ⟨i, body, ha, ?_⟩
    rw [List.length_drop, List.length_take]
    congr 2
    omega
  · rw [List.flatten_append, List.flatten_singleton, ← htransit]
    exact (List.append_assoc _ _ _).symm

theorem Lagging.read {v : Server κ β ι} {out : List (Outcome κ β ι)} {s : State κ β ι}
    (h : Lagging v out s) {k : κ} {line replies : List (β × Origin ι)} {b : β × Origin ι}
    (hw : s.waiting = some (k, line)) (hr : s.replies = b :: replies) (hb : b.1 ≠ v.terminator) :
    Lagging v out { s with waiting := some (k, line ++ [b]), replies := replies } := by
  obtain ⟨hsent, hle, hdone, hqueue, hplain, ⟨answers, hfrom, htransit⟩, hout⟩ := h
  have hreq : requests out { s with waiting := some (k, line ++ [b]), replies := replies } =
      requests out s := by
    simp [requests, hw]
  rw [hw] at hplain htransit
  refine ⟨hreq ▸ hsent, hle, hdone, hreq ▸ hqueue, ?_, ⟨answers, hreq ▸ hfrom, ?_⟩, hout⟩
  · intro p hp
    rw [Option.map_some, Option.getD_some, ← List.append_assoc, List.mem_append] at hp
    rcases hp with hp | hp
    · exact hplain p hp
    · rw [List.mem_singleton.mp hp]
      exact hb
  · rw [← htransit, hr]
    simp

/-- The read takes the rest of the first answer in transit. -/
theorem Lagging.finish {v : Server κ β ι} {out : List (Outcome κ β ι)} {s : State κ β ι}
    (h : Lagging v out s) {k : κ} {line replies : List (β × Origin ι)} {b : β × Origin ι}
    (hw : s.waiting = some (k, line)) (hr : s.replies = b :: replies) (hb : b.1 = v.terminator) :
    Lagging v (out ++ [⟨s.sent, k, line ++ [b], true⟩])
      { s with waiting := none, replies := replies } := by
  obtain ⟨hsent, hle, hdone, hqueue, hplain, ⟨answers, hfrom, htransit⟩, hout⟩ := h
  have hreq : requests (out ++ [⟨s.sent, k, line ++ [b], true⟩])
      { s with waiting := none, replies := replies } = requests out s := by
    simp [requests, hw]
  have hmap : (out ++ [(⟨s.sent, k, line ++ [b], true⟩ : Outcome κ β ι)]).map (·.request) =
      requests out s := by
    simp [requests, hw]
  have hnumber : s.sent = out.length + 1 := by
    rw [← hsent]
    simp [requests, hw]
  have hdone' : done (out ++ [⟨s.sent, k, line ++ [b], true⟩]) = done out + 1 := by simp [done]
  have hleft : leftover (out ++ [⟨s.sent, k, line ++ [b], true⟩]) = [] := by
    rw [leftover_concat]
    rfl
  rw [hw, hr] at htransit
  rw [hw] at hplain
  cases hturn : ((requests out s).take s.handled).drop (done out) with
  | nil =>
    rw [hturn] at hfrom
    obtain rfl : answers = [] := hfrom
    exact absurd htransit (by simp)
  | cons k₀ ks =>
    obtain ⟨hget, hlt⟩ := getElem?_of_drop_take hturn
    rw [hturn] at hfrom
    obtain ⟨a, rest, rfl, ⟨i, body, hans, rfl⟩, hrest⟩ := hfrom
    have hbody : ∀ p ∈ tagged (⟨done out + 1, i⟩ : Origin ι) body, p.1 ≠ v.terminator := by
      intro p hp
      obtain ⟨c, hc, rfl⟩ := List.mem_map.mp hp
      exact fun he => v.plain hans (he ▸ hc)
    have hcut : leftover out ++ line ++ b :: replies =
        tagged ⟨done out + 1, i⟩ body ++ (v.terminator, ⟨done out + 1, i⟩) :: rest.flatten := by
      simpa [tagged] using htransit
    obtain ⟨hline, rfl, hreplies⟩ := split_terminator hcut hplain hbody hb rfl
    refine ⟨hreq ▸ hsent, hle, hdone'.trans_le hlt, hreq ▸ hqueue, ?_, ⟨rest, ?_, ?_⟩,
      hout.concat ⟨hnumber, fun _ => ⟨k₀, hmap ▸ hget, i, body, hans, ?_⟩⟩⟩
    · rw [hleft]
      simp
    · have htail : ((requests out s).take s.handled).drop (done out + 1) = ks := by
        rw [← List.tail_drop, hturn, List.tail_cons]
      rw [hreq, hdone']
      exact htail.symm ▸ hrest
    · rw [hleft]
      exact hreplies
    · rw [← List.append_assoc, hline]
      simp [tagged]

theorem Lagging.giveUp {v : Server κ β ι} {out : List (Outcome κ β ι)} {s : State κ β ι}
    (h : Lagging v out s) {k : κ} {line : List (β × Origin ι)} (hw : s.waiting = some (k, line)) :
    Lagging v (out ++ [⟨s.sent, k, line, false⟩]) { s with waiting := none } := by
  obtain ⟨hsent, hle, hdone, hqueue, hplain, ⟨answers, hfrom, htransit⟩, hout⟩ := h
  have hreq : requests (out ++ [⟨s.sent, k, line, false⟩]) { s with waiting := none } =
      requests out s := by
    simp [requests, hw]
  have hnumber : s.sent = out.length + 1 := by
    rw [← hsent]
    simp [requests, hw]
  have hdone' : done (out ++ [⟨s.sent, k, line, false⟩]) = done out := by simp [done]
  have hleft : leftover (out ++ [⟨s.sent, k, line, false⟩]) = leftover out ++ line := by
    rw [leftover_concat]
    rfl
  rw [hw] at hplain htransit
  refine ⟨hreq ▸ hsent, hle, hdone'.trans_le hdone, hreq ▸ hqueue, ?_, ⟨answers, ?_, ?_⟩,
    hout.concat ⟨hnumber, by simp⟩⟩
  · rw [hleft]
    simpa using hplain
  · rw [hreq, hdone']
    exact hfrom
  · rw [hleft, ← htransit]
    simp

theorem Lagging.step {v : Server κ β ι} {out o : List (Outcome κ β ι)} {s s' : State κ β ι}
    (h : Lagging v out s) (hs : Step v s o s') : Lagging v (out ++ o) s' := by
  cases hs with
  | idle =>
    rw [List.append_nil]
    exact h
  | send k hw =>
    rw [List.append_nil]
    exact h.send k hw
  | handle k queue i body hq ha =>
    rw [List.append_nil]
    exact h.handle hq ha
  | read k line replies b hw hr hb =>
    rw [List.append_nil]
    exact h.read hw hr hb
  | finish k line replies b hw hr hb => exact h.finish hw hr hb
  | giveUp k line hw => exact h.giveUp hw

theorem Run.lagging {v : Server κ β ι} {out : List (Outcome κ β ι)} {s : State κ β ι}
    (h : Run v out s) : Lagging v out s := by
  induction h with
  | start => exact lagging_initial v
  | step _ hs ih => exact ih.step hs

/-- The reads that were given up. -/
def givenUp (out : List (Outcome κ β ι)) : Nat := out.countP (fun r => !r.complete)

theorem done_eq (out : List (Outcome κ β ι)) : done out = out.length - givenUp out := by
  have h := List.length_eq_countP_add_countP (fun r : Outcome κ β ι => r.complete) (l := out)
  have hnot : (fun r : Outcome κ β ι => decide ¬ r.complete = true) = fun r => !r.complete := by
    funext r
    cases r.complete <;> rfl
  rw [hnot] at h
  unfold done givenUp
  omega

/-- A completed read is the rest of the answer to the request that lies as many requests
back as reads were given up before it. -/
theorem Run.lag {v : Server κ β ι} {out : List (Outcome κ β ι)} {s : State κ β ι}
    (h : Run v out s) {pre post : List (Outcome κ β ι)} {r : Outcome κ β ι}
    (hout : out = pre ++ r :: post) (hr : r.complete = true) :
    ∃ k, ((pre ++ [r]).map (·.request))[pre.length - givenUp pre]? = some k ∧
      AnswerTo v k (r.number - givenUp pre) (leftover pre ++ r.line) := by
  obtain ⟨hnumber, hrem⟩ := h.lagging.outcomes pre r post hout
  obtain ⟨k, hk, hans⟩ := hrem hr
  have hle : givenUp pre ≤ pre.length := List.countP_le_length
  have hdone := done_eq pre
  rw [hdone] at hk
  have hnum : done pre + 1 = r.number - givenUp pre := by omega
  exact ⟨k, hk, hnum ▸ hans⟩

end LineRpc
