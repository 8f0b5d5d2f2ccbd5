import Mathlib.Data.List.Range
import Mathlib.Data.List.Count

/-!
# One-line requests over two queues

A client sends a request and reads one line; a server takes the requests in
order and answers each with one line; the client may give up waiting at any time,
keeping what it has read, and go on with its next request. Every symbol of a
reply carries the number of the request it answers and what the server held at
the time, so that statements can say whose answer a line is.

Since a line has one terminator and a reader that gives up has read none, the
terminators still unread are those of the requests after the last completed
read: one abandoned read shifts all later ones by one line.
-/
namespace LineRpc

/-! ## Facts about every element of a list and what is before it -/

/-- Every element has the property together with the elements before it. -/
def EachAfter {α : Type} (P : List α → α → Prop) (l : List α) : Prop :=
  ∀ pre a post, l = pre ++ a :: post → P pre a

theorem eachAfter_nil {α : Type} (P : List α → α → Prop) : EachAfter P [] := by
  intro pre a post h
  exact absurd h (by simp)

theorem EachAfter.concat {α : Type} {P : List α → α → Prop} {l : List α} {x : α}
    (h : EachAfter P l) (hx : P l x) : EachAfter P (l ++ [x]) := by
  intro pre a post he
  rcases List.eq_nil_or_concat post with rfl | ⟨post', y, rfl⟩
  · obtain ⟨rfl, hxa⟩ := List.append_inj' he rfl
    rw [List.cons.injEq] at hxa
    exact hxa.1 ▸ hx
  · rw [List.concat_eq_append, ← List.cons_append, ← List.append_assoc] at he
    exact h pre a post' (List.append_inj' he rfl).1

/-! ## The machine -/

variable {κ β ι : Type}

/-- The request a symbol answers, and what the server held when it answered. -/
structure Origin (ι : Type) where
  request : Nat
  info : ι
  deriving DecidableEq, Repr

/-- The possible bodies of an answer; the terminator stands only behind them. -/
structure Server (κ β ι : Type) where
  terminator : β
  Answers : κ → ι → List β → Prop
  plain : ∀ {k i body}, Answers k i body → terminator ∉ body

structure State (κ β ι : Type) where
  waiting : Option (κ × List (β × Origin ι))
  queue : List κ
  replies : List (β × Origin ι)
  sent : Nat
  handled : Nat

def initial : State κ β ι := ⟨none, [], [], 0, 0⟩

/-- The end of a read: of a line, or of the client's patience. -/
structure Outcome (κ β ι : Type) where
  number : Nat
  request : κ
  line : List (β × Origin ι)
  complete : Bool
  deriving DecidableEq

/-- Symbols of one origin. -/
def tagged (o : Origin ι) (l : List β) : List (β × Origin ι) := l.map (fun b => (b, o))

inductive Step (v : Server κ β ι) :
    State κ β ι → List (Outcome κ β ι) → State κ β ι → Prop where
  | idle (s : State κ β ι) : Step v s [] s
  | send (s : State κ β ι) (k : κ) (hw : s.waiting = none) :
    Step v s [] { s with waiting := some (k, []), queue := s.queue ++ [k], sent := s.sent + 1 }
  | handle (s : State κ β ι) (k : κ) (queue : List κ) (i : ι) (body : List β)
    (hq : s.queue = k :: queue) (ha : v.Answers k i body) :
    Step v s []
      { s with
        queue := queue
        replies := s.replies ++ tagged ⟨s.handled + 1, i⟩ (body ++ [v.terminator])
        handled := s.handled + 1 }
  | read (s : State κ β ι) (k : κ) (line replies : List (β × Origin ι)) (b : β × Origin ι)
    (hw : s.waiting = some (k, line)) (hr : s.replies = b :: replies) (hb : b.1 ≠ v.terminator) :
    Step v s [] { s with waiting := some (k, line ++ [b]), replies := replies }
  | finish (s : State κ β ι) (k : κ) (line replies : List (β × Origin ι)) (b : β × Origin ι)
    (hw : s.waiting = some (k, line)) (hr : s.replies = b :: replies) (hb : b.1 = v.terminator) :
    Step v s [⟨s.sent, k, line ++ [b], true⟩] { s with waiting := none, replies := replies }
  | giveUp (s : State κ β ι) (k : κ) (line : List (β × Origin ι))
    (hw : s.waiting = some (k, line)) :
    Step v s [⟨s.sent, k, line, false⟩] { s with waiting := none }

inductive Run (v : Server κ β ι) : List (Outcome κ β ι) → State κ β ι → Prop where
  | start : Run v [] initial
  | step {out o s s'} (h : Run v out s) (hs : Step v s o s') : Run v (out ++ o) s'

/-! ## Counting terminators -/

section Counting

variable [DecidableEq β]

/-- The completed reads. -/
def done (out : List (Outcome κ β ι)) : Nat := out.countP (·.complete)

/-- The requests whose terminators are among the symbols. -/
def terminators (v : Server κ β ι) (l : List (β × Origin ι)) : List Nat :=
  (l.filter (fun b => b.1 = v.terminator)).map (fun b => b.2.request)

theorem terminators_append (v : Server κ β ι) (l l' : List (β × Origin ι)) :
    terminators v (l ++ l') = terminators v l ++ terminators v l' := by
  simp [terminators]

/-- An answer holds one terminator. -/
theorem terminators_answer (v : Server κ β ι) {k : κ} {i : ι} {body : List β} (o : Origin ι)
    (h : v.Answers k i body) : terminators v (tagged o (body ++ [v.terminator])) = [o.request] := by
  have hbody : (tagged o body).filter (fun b => b.1 = v.terminator) = [] := by
    rw [List.filter_eq_nil_iff]
    intro b hb
    obtain ⟨c, hc, rfl⟩ := List.mem_map.mp hb
    simpa using fun he : c = v.terminator => v.plain h (he ▸ hc)
  have hsplit : tagged o (body ++ [v.terminator]) = tagged o body ++ [(v.terminator, o)] := by
    simp [tagged]
  rw [hsplit, terminators_append, terminators, hbody]
  simp [terminators]

/-- The unread terminators are those of the requests after the last completed read. -/
structure Counted (v : Server κ β ι) (out : List (Outcome κ β ι)) (s : State κ β ι) : Prop where
  sent : out.length + (if s.waiting.isSome then 1 else 0) = s.sent
  handled : s.handled + s.queue.length = s.sent
  unread : ∃ n, terminators v s.replies = List.range' (done out + 1) n ∧ done out + n = s.handled
  outcomes : EachAfter (fun pre r => r.number = pre.length + 1 ∧
    (r.complete = true → ∃ b ∈ r.line, b.2.request = done pre + 1)) out

theorem counted_initial (v : Server κ β ι) : Counted v [] initial :=
  ⟨rfl, rfl, ⟨0, rfl, rfl⟩, eachAfter_nil _⟩

theorem Counted.step {v : Server κ β ι} {out o : List (Outcome κ β ι)} {s s' : State κ β ι}
    (h : Counted v out s) (hs : Step v s o s') : Counted v (out ++ o) s' := by
  obtain ⟨hsent, hhandled, ⟨n, hunread, hn⟩, hout⟩ := h
  cases hs with
  | idle => exact ⟨by simpa using hsent, hhandled, ⟨n, by simpa using hunread, by simpa using hn⟩,
      by simpa using hout⟩
  | send k hw =>
    rw [List.append_nil]
    rw [hw] at hsent
    refine ⟨?_, ?_, ⟨n, hunread, hn⟩, hout⟩
    · simp at hsent ⊢
      omega
    · simp only [List.length_append, List.length_singleton]
      omega
  | handle k queue i body hq ha =>
    rw [List.append_nil]
    rw [hq, List.length_cons] at hhandled
    refine ⟨hsent, ?_, ⟨n + 1, ?_, ?_⟩, hout⟩
    · dsimp only
      omega
    · rw [terminators_append, hunread, terminators_answer v _ ha, List.range'_concat]
      congr 2
      change s.handled + 1 = _
      omega
    · dsimp only
      omega
  | read k line replies b hw hr hb =>
    rw [List.append_nil]
    refine ⟨?_, hhandled, ⟨n, ?_, hn⟩, hout⟩
    · rw [hw] at hsent
      exact hsent
    · rw [hr] at hunread
      simpa [terminators, hb] using hunread
  | finish k line replies b hw hr hb =>
    rw [hw] at hsent
    simp only [Option.isSome_some, ↓reduceIte] at hsent
    have hcons : terminators v (b :: replies) = b.2.request :: terminators v replies := by
      simp [terminators, hb]
    rw [hr, hcons] at hunread
    have hdone : done (out ++ [⟨s.sent, k, line ++ [b], true⟩]) = done out + 1 := by
      simp [done]
    cases n with
    | zero => exact absurd hunread (by simp)
    | succ n =>
      rw [List.range'_succ, List.cons.injEq] at hunread
      refine ⟨by simpa using hsent, hhandled, ⟨n, ?_, ?_⟩, hout.concat ⟨?_, fun _ => ?_⟩⟩
      · rw [hdone]
        exact hunread.2
      · rw [hdone]
        dsimp only
        omega
      · exact hsent.symm
      · exact ⟨b, by simp, hunread.1⟩
  | giveUp k line hw =>
    rw [hw] at hsent
    simp only [Option.isSome_some, ↓reduceIte] at hsent
    have hdone : done (out ++ [⟨s.sent, k, line, false⟩]) = done out := by simp [done]
    refine ⟨by simpa using hsent, hhandled, ⟨n, ?_, ?_⟩, hout.concat ⟨hsent.symm, by simp⟩⟩
    · rw [hdone]
      exact hunread
    · rw [hdone]
      exact hn

theorem Run.counted {v : Server κ β ι} {out : List (Outcome κ β ι)} {s : State κ β ι}
    (h : Run v out s) : Counted v out s := by
  induction h with
  | start => exact counted_initial v
  | step _ hs ih => exact ih.step hs

end Counting

/-! ## Without a given-up read -/

/-- A line read from the front of an answer is the answer. -/
theorem answer_split {T : β} {u w body : List β} (h : u ++ T :: w = body ++ [T]) (hb : T ∉ body) :
    w = [] := by
  rcases List.append_eq_append_iff.mp h with ⟨a, hbody, ha⟩ | ⟨c, -, hc⟩
  · cases a with
    | nil => exact (List.cons.inj ha).2
    | cons x a =>
      have hx : T = x := (List.cons.inj ha).1
      exact absurd (by rw [hbody, hx]; simp) hb
  · cases c with
    | nil => exact (List.cons.inj hc).2.symm
    | cons x c => exact absurd hc (by simp)

/-- The three phases of an exchange that is in step. -/
inductive Phase (v : Server κ β ι) : State κ β ι → Prop where
  | idle (n : Nat) : Phase v ⟨none, [], [], n, n⟩
  | sent (k : κ) (n : Nat) : Phase v ⟨some (k, []), [k], [], n + 1, n⟩
  | answered (k : κ) (i : ι) (body : List β) (line replies : List (β × Origin ι)) (n : Nat)
    (ha : v.Answers k i body)
    (hl : line ++ replies = tagged ⟨n, i⟩ (body ++ [v.terminator])) :
    Phase v ⟨some (k, line), [], replies, n, n⟩

/-- The outcome is the whole answer to its own request. -/
def Own (v : Server κ β ι) (r : Outcome κ β ι) : Prop :=
  ∃ i body, v.Answers r.request i body ∧
    r.line = tagged ⟨r.number, i⟩ (body ++ [v.terminator])

/-- As long as no read is given up, the exchange is in step and every line is the
answer to its own request. -/
structure Synced (v : Server κ β ι) (out : List (Outcome κ β ι)) (s : State κ β ι) : Prop where
  phase : (∀ r ∈ out, r.complete = true) → Phase v s
  outcomes : EachAfter (fun pre r => (∀ q ∈ pre, q.complete = true) → r.complete = true → Own v r) out

theorem Phase.step {v : Server κ β ι} {o : List (Outcome κ β ι)} {s s' : State κ β ι}
    (h : Phase v s) (hs : Step v s o s') (ho : ∀ r ∈ o, r.complete = true) :
    Phase v s' ∧ ∀ r ∈ o, Own v r := by
  cases hs with
  | idle => exact ⟨h, by simp⟩
  | send k hw =>
    cases h with
    | idle n => exact ⟨.sent k n, by simp⟩
    | sent => exact absurd hw (by simp)
    | answered => exact absurd hw (by simp)
  | handle k queue i body hq ha =>
    cases h with
    | idle => exact absurd hq (by simp)
    | sent k' n =>
      obtain ⟨rfl, rfl⟩ := List.cons.inj hq
      exact ⟨.answered k' i body [] _ (n + 1) ha rfl, by simp⟩
    | answered => exact absurd hq (by simp)
  | read k line replies b hw hr hb =>
    cases h with
    | idle => exact absurd hw (by simp)
    | sent => exact absurd hr (by simp)
    | answered k' i body line' replies' n ha hl =>
      obtain ⟨rfl, rfl⟩ := Prod.mk.inj (Option.some.inj hw)
      dsimp only at hr
      subst hr
      exact ⟨.answered k' i body (line' ++ [b]) replies n ha (by simpa using hl), by simp⟩
  | finish k line replies b hw hr hb =>
    cases h with
    | idle => exact absurd hw (by simp)
    | sent => exact absurd hr (by simp)
    | answered k' i body line' replies' n ha hl =>
      obtain ⟨rfl, rfl⟩ := Prod.mk.inj (Option.some.inj hw)
      dsimp only at hr
      subst hr
      have hfst := congrArg (List.map Prod.fst) hl
      simp only [List.map_append, List.map_cons, tagged, List.map_map, Function.comp_def, hb,
        List.map_id_fun', id_eq] at hfst
      have hnil : replies = [] := List.map_eq_nil_iff.mp (answer_split hfst (v.plain ha))
      subst hnil
      refine ⟨.idle n, ?_⟩
      intro r hr
      rw [List.mem_singleton.mp hr]
      exact ⟨i, body, ha, hl⟩
  | giveUp k line hw => exact absurd (ho _ (List.mem_singleton_self _)) (by simp)

theorem Step.outcome_cases {v : Server κ β ι} {o : List (Outcome κ β ι)} {s s' : State κ β ι}
    (hs : Step v s o s') : o = [] ∨ ∃ r, o = [r] := by
  cases hs with
  | idle | send | handle | read => exact .inl rfl
  | finish | giveUp => exact .inr ⟨_, rfl⟩

theorem Run.synced {v : Server κ β ι} {out : List (Outcome κ β ι)} {s : State κ β ι}
    (h : Run v out s) : Synced v out s := by
  induction h with
  | start => exact ⟨fun _ => .idle 0, eachAfter_nil _⟩
  | @step out o s s' _ hs ih =>
    refine ⟨fun hall => ?_, ?_⟩
    · have hphase := ih.phase (fun r hr => hall r (List.mem_append_left _ hr))
      exact (hphase.step hs (fun r hr => hall r (List.mem_append_right _ hr))).1
    · rcases hs.outcome_cases with rfl | ⟨r, rfl⟩
      · simpa using ih.outcomes
      · refine ih.outcomes.concat (fun hpre hr => ?_)
        exact ((ih.phase hpre).step hs (by simpa using hr)).2 r (by simp)

/-- A completed read is the answer to its own request if and only if no read before
it was given up. -/
theorem Run.own_iff [DecidableEq β] {v : Server κ β ι} {out : List (Outcome κ β ι)}
    {s : State κ β ι} (h : Run v out s) {pre post : List (Outcome κ β ι)} {r : Outcome κ β ι}
    (hout : out = pre ++ r :: post) (hr : r.complete = true) :
    Own v r ↔ ∀ q ∈ pre, q.complete = true := by
  constructor
  · rintro ⟨i, body, -, hline⟩
    obtain ⟨hnum, hterm⟩ := h.counted.outcomes pre r post hout
    obtain ⟨b, hb, hreq⟩ := hterm hr
    rw [hline] at hb
    obtain ⟨c, -, rfl⟩ := List.mem_map.mp hb
    have hcount : pre.countP (·.complete) = pre.length := by
      change r.number = done pre + 1 at hreq
      unfold done at hreq
      omega
    exact List.countP_eq_length.mp hcount
  · exact fun hpre => h.synced.outcomes pre r post hout hpre hr

end LineRpc
