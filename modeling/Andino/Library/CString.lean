import Mathlib.Data.List.TakeWhile

/-!
# NUL-terminated strings in a character array

A character array is a list of bytes and a pointer into it is an index. `cstr`
is the string a pointer denotes, `strtokR` the destructive tokeniser of the C
library, and `tokens` the specification it meets: the maximal delimiter-free
runs of the string. The tokeniser overwrites delimiters behind the tokens it
has returned, so every statement says which cells it may have touched.
-/
namespace CString

abbrev Byte := UInt8

def ascii (s : String) : List Byte := s.toList.map Char.toUInt8

/-- A property of all the bytes of a text, by evaluation. -/
theorem forall_mem_of_all {p : Byte → Prop} [DecidablePred p] {l : List Byte}
    (h : l.all (fun c => decide (p c)) = true) : ∀ c ∈ l, p c := by
  simpa using h

theorem forall_mem_append_cons {p : Byte → Prop} {u w : List Byte} {d : Byte}
    (hu : ∀ c ∈ u, p c) (hd : p d) (hw : ∀ c ∈ w, p c) : ∀ c ∈ u ++ d :: w, p c :=
  List.forall_mem_append.mpr ⟨hu, List.forall_mem_cons.mpr ⟨hd, hw⟩⟩

def CR : Byte := 13
def LF : Byte := 10
def SP : Byte := 32
def COLON : Byte := 58

/-- The string that starts at cell `p`: everything up to the first NUL. -/
def cstr (m : List Byte) (p : Nat) : List Byte := (m.drop p).takeWhile (· ≠ 0)

/-- A stored NUL ends the string, unless an earlier one does. -/
theorem takeWhile_append_nul (w t : List Byte) :
    (w ++ 0 :: t).takeWhile (· ≠ 0) = w.takeWhile (· ≠ 0) := by
  induction w with
  | nil => simp
  | cons c w ih =>
    rw [List.cons_append, List.takeWhile_cons, List.takeWhile_cons, ih]

/-- A NUL follows the string at `p` inside the array. -/
def Terminated (m : List Byte) (p : Nat) : Prop := p + (cstr m p).length < m.length

theorem cstr_ne_nul (m : List Byte) (p : Nat) : ∀ c ∈ cstr m p, c ≠ 0 := by
  intro c hc
  simpa using List.mem_takeWhile_imp hc

/-- A string is determined by its cells and its terminator. -/
theorem cstr_eq_of_append {m : List Byte} {p : Nat} {s t : List Byte}
    (h : m.drop p = s ++ 0 :: t) (hs : ∀ c ∈ s, c ≠ 0) : cstr m p = s := by
  rw [cstr, h, List.takeWhile_append_of_pos (by simpa using hs)]
  simp

/-- Reading stops at a NUL as soon as it stops inside the array. -/
theorem takeWhile_nul_split (l : List Byte) (h : (l.takeWhile (· ≠ 0)).length < l.length) :
    ∃ t, l = l.takeWhile (· ≠ 0) ++ 0 :: t := by
  induction l with
  | nil => simp at h
  | cons c l ih =>
    by_cases hc : c = 0
    · subst c
      exact ⟨l, by simp⟩
    · simp only [List.takeWhile_cons_of_pos (p := fun c : Byte => decide (c ≠ 0)) (by simpa using hc),
        List.length_cons, Nat.add_lt_add_iff_right] at h ⊢
      obtain ⟨t, ht⟩ := ih h
      refine ⟨t, ?_⟩
      rw [List.cons_append, ← ht]

theorem cstr_decompose (m : List Byte) (p : Nat) (h : Terminated m p) :
    m.drop p = cstr m p ++ 0 :: m.drop (p + (cstr m p).length + 1) := by
  have hlt : p + (cstr m p).length < m.length := h
  obtain ⟨t, ht⟩ := takeWhile_nul_split (m.drop p) (by
    change (cstr m p).length < (m.drop p).length
    rw [List.length_drop]
    omega)
  change m.drop p = cstr m p ++ 0 :: t at ht
  have hd : m.drop (p + (cstr m p).length + 1) = t := by
    rw [Nat.add_assoc, ← List.drop_drop, ht, List.drop_length_add_append]
    rfl
  rw [hd]
  exact ht

/-- Moving the pointer inside a string drops what it passes over. -/
theorem cstr_add (m : List Byte) (p k : Nat) (h : Terminated m p) (hk : k ≤ (cstr m p).length) :
    cstr m (p + k) = (cstr m p).drop k := by
  refine cstr_eq_of_append (t := m.drop (p + (cstr m p).length + 1)) ?_ ?_
  · rw [← List.drop_drop, cstr_decompose m p h, List.drop_append_of_le_length hk]
  · intro c hc
    exact cstr_ne_nul m p c (List.mem_of_mem_drop hc)

theorem terminated_add (m : List Byte) (p k : Nat) (h : Terminated m p)
    (hk : k ≤ (cstr m p).length) : Terminated m (p + k) := by
  have hl : p + (cstr m p).length < m.length := h
  unfold Terminated
  rw [cstr_add m p k h hk, List.length_drop]
  omega

/-- A string only depends on its own cells and its terminator. -/
theorem cstr_congr {m m' : List Byte} {p : Nat} (h : Terminated m p)
    (he : ∀ i, i ≤ p + (cstr m p).length → m'[i]? = m[i]?) : cstr m' p = cstr m p := by
  refine cstr_eq_of_append (t := m'.drop (p + (cstr m p).length + 1)) ?_ (cstr_ne_nul m p)
  apply List.ext_getElem?
  intro i
  by_cases hi : i ≤ (cstr m p).length
  · have hd := congrArg (fun l => l[i]?) (cstr_decompose m p h)
    simp only [List.getElem?_drop] at hd
    rw [List.getElem?_drop, he _ (by omega), hd]
    rcases Nat.lt_or_eq_of_le hi with hlt | heq
    · rw [List.getElem?_append_left hlt, List.getElem?_append_left hlt]
    · rw [List.getElem?_append_right (by omega), List.getElem?_append_right (by omega), heq]
      simp
  · rw [List.getElem?_append_right (by omega), List.getElem?_drop]
    obtain ⟨j, hj⟩ := Nat.exists_eq_add_of_lt (Nat.lt_of_not_le hi)
    have hs : i - (cstr m p).length = j + 1 := by omega
    rw [hs, List.getElem?_cons_succ, List.getElem?_drop]
    congr 1
    omega

/-! ## Tokens -/

/-- The maximal nonempty runs without a delimiter, in order. -/
def tokens (delims s : List Byte) : List (List Byte) :=
  (s.splitOnP (· ∈ delims)).filter (· ≠ [])

@[simp] theorem tokens_nil (delims : List Byte) : tokens delims [] = [] := by
  simp [tokens, List.splitOnP_nil]

/-- A delimiter in front of a string adds no token. -/
theorem tokens_cons_delim (delims : List Byte) (d : Byte) (s : List Byte) (hd : d ∈ delims) :
    tokens delims (d :: s) = tokens delims s := by
  have h : ([] ++ d :: s).splitOnP (· ∈ delims) = [] :: s.splitOnP (· ∈ delims) :=
    List.splitOnP_append_cons_of_forall_mem (by simp) d (by simpa using hd) s
  rw [List.nil_append] at h
  simp [tokens, h]

theorem tokens_delims_append (delims ds s : List Byte) (hd : ∀ c ∈ ds, c ∈ delims) :
    tokens delims (ds ++ s) = tokens delims s := by
  induction ds with
  | nil => rfl
  | cons d ds ih =>
    rw [List.cons_append, tokens_cons_delim _ _ _ (hd d (by simp))]
    exact ih (fun c hc => hd c (by simp [hc]))

/-- A word ended by a delimiter is the first token. -/
theorem tokens_word_append (delims w s : List Byte) (d : Byte) (hw : w ≠ [])
    (hc : ∀ c ∈ w, c ∉ delims) (hd : d ∈ delims) :
    tokens delims (w ++ d :: s) = w :: tokens delims s := by
  have h : (w ++ d :: s).splitOnP (· ∈ delims) = w :: s.splitOnP (· ∈ delims) :=
    List.splitOnP_append_cons_of_forall_mem (by simpa using hc) d (by simpa using hd) s
  simp [tokens, h, hw]

theorem tokens_word (delims w : List Byte) (hw : w ≠ []) (hc : ∀ c ∈ w, c ∉ delims) :
    tokens delims w = [w] := by
  have h : w.splitOnP (· ∈ delims) = [w] := List.splitOnP_eq_singleton (by simpa using hc)
  simp [tokens, h, hw]

/-- One token of the string at `p`, as `strtok_r` finds it: the token's cell, the
array with the delimiter behind the token overwritten, and the saved pointer. -/
def strtokR (delims m : List Byte) (p : Nat) : Option Nat × List Byte × Nat :=
  let s := p + ((cstr m p).takeWhile (· ∈ delims)).length
  let e := s + ((cstr m s).takeWhile (· ∉ delims)).length
  if cstr m s = [] then (none, m, s)
  else if cstr m e = [] then (some s, m, e)
  else (some s, m.set e 0, e + 1)

/-- Tokenising overwrites cells and never changes the size of the array. -/
theorem strtokR_length (delims m : List Byte) (p : Nat) :
    (strtokR delims m p).2.1.length = m.length := by
  unfold strtokR
  dsimp only
  split
  · rfl
  · split
    · rfl
    · exact List.length_set

/-- The cell that `strtok_r` overwrites, if any. -/
def strtokRWrite (delims m : List Byte) (p : Nat) : Option Nat :=
  let s := p + ((cstr m p).takeWhile (· ∈ delims)).length
  let e := s + ((cstr m s).takeWhile (· ∉ delims)).length
  if cstr m s = [] ∨ cstr m e = [] then none else some e

/-- It lies inside the array, -/
theorem strtokRWrite_lt {delims m : List Byte} {p e : Nat} (h : strtokRWrite delims m p = some e) :
    e < m.length := by
  unfold strtokRWrite at h
  dsimp only at h
  split at h
  · exact absurd h (by simp)
  · rename_i hne
    rw [Option.some.injEq] at h
    rw [h] at hne
    by_contra hge
    exact hne (.inr (by rw [cstr, List.drop_of_length_le (by omega), List.takeWhile_nil]))

/-- and no other cell changes. -/
theorem strtokR_frame {delims m : List Byte} {p i : Nat} (h : i ∉ strtokRWrite delims m p) :
    (strtokR delims m p).2.1[i]? = m[i]? := by
  unfold strtokRWrite at h
  unfold strtokR
  dsimp only at h ⊢
  split
  · rfl
  · split
    · rfl
    · rename_i hs he
      rw [if_neg (not_or.mpr ⟨hs, he⟩)] at h
      exact List.getElem?_set_ne (fun heq => h (by rw [heq]; exact Option.mem_some_self i))

/-- Dropping stops at an element that fails the test. -/
theorem dropWhile_eq_cons {q : Byte → Bool} {l t : List Byte} {c : Byte}
    (h : l.dropWhile q = c :: t) : q c = false := by
  have hne : l.dropWhile q ≠ [] := by
    rw [h]
    exact List.cons_ne_nil c t
  have hc := List.head_dropWhile_not q hne
  simp only [h, List.head_cons] at hc
  exact hc

/-- Leading delimiters, a word, and what is left of a string. -/
theorem word_split (delims s : List Byte) :
    ∃ ds w r, s = ds ++ (w ++ r) ∧ ds = s.takeWhile (· ∈ delims) ∧
      w = (w ++ r).takeWhile (· ∉ delims) ∧ (∀ c ∈ ds, c ∈ delims) ∧ (∀ c ∈ w, c ∉ delims) ∧
      (w = [] → r = []) ∧ (r = [] ∨ ∃ d t, r = d :: t ∧ d ∈ delims) := by
  let u := s.dropWhile (· ∈ delims)
  have hu : u.takeWhile (· ∉ delims) ++ u.dropWhile (· ∉ delims) = u :=
    List.takeWhile_append_dropWhile
  refine ⟨s.takeWhile (· ∈ delims), u.takeWhile (· ∉ delims), u.dropWhile (· ∉ delims),
    ?_, rfl, ?_, ?_, ?_, ?_, ?_⟩
  · rw [hu]
    exact List.takeWhile_append_dropWhile.symm
  · rw [hu]
  · intro c hc
    simpa using List.mem_takeWhile_imp hc
  · intro c hc
    simpa using List.mem_takeWhile_imp hc
  · intro hw
    rw [hw, List.nil_append] at hu
    cases hc : u with
    | nil => rfl
    | cons c t =>
      -- dropping stopped at `c`, so it is no delimiter and starts a word
      have hcd : c ∉ delims := by simpa using dropWhile_eq_cons hc
      rw [hc, List.takeWhile_cons_of_pos (by simpa using hcd)] at hw
      exact absurd hw (List.cons_ne_nil _ _)
  · cases hr : u.dropWhile (· ∉ delims) with
    | nil => exact Or.inl rfl
    | cons d t => exact Or.inr ⟨d, t, rfl, by simpa using dropWhile_eq_cons hr⟩

/-- A string without tokens is made of delimiters only. -/
theorem tokens_eq_nil_iff (delims s : List Byte) :
    tokens delims s = [] ↔ ∀ c ∈ s, c ∈ delims := by
  constructor
  · intro ht
    obtain ⟨ds, w, r, hs, -, -, hd, hc, hr, hrest⟩ := word_split delims s
    have hw0 : w = [] := by
      by_contra hne
      rw [hs, tokens_delims_append _ _ _ hd] at ht
      rcases hrest with rfl | ⟨d, t, rfl, hdd⟩
      · rw [List.append_nil, tokens_word _ _ hne hc] at ht
        exact absurd ht (List.cons_ne_nil _ _)
      · rw [tokens_word_append _ _ _ _ hne hc hdd] at ht
        exact absurd ht (List.cons_ne_nil _ _)
    rw [hs, hw0, hr hw0, List.append_nil, List.append_nil]
    exact hd
  · intro h
    have ht := tokens_delims_append delims s [] h
    rwa [List.append_nil, tokens_nil] at ht

/-- The string at `p` has no token: nothing is found and nothing is written. -/
theorem strtokR_none {delims m : List Byte} {p : Nat} (h : Terminated m p)
    (ht : tokens delims (cstr m p) = []) : ∃ q, strtokR delims m p = (none, m, q) := by
  have hall := (tokens_eq_nil_iff delims (cstr m p)).mp ht
  have htw : (cstr m p).takeWhile (· ∈ delims) = cstr m p :=
    List.takeWhile_eq_self_iff.mpr (fun c hc => decide_eq_true (hall c hc))
  have hnil : cstr m (p + (cstr m p).length) = [] := by
    rw [cstr_add m p _ h (le_refl _), List.drop_length]
  refine ⟨p + (cstr m p).length, ?_⟩
  simp only [strtokR, htw, hnil, ↓reduceIte]

/-- The string at `p` has a token: it is found, the rest of the tokens are left
behind the saved pointer, and no cell up to `p` changes. -/
theorem strtokR_some {delims m : List Byte} {p : Nat} {w : List Byte} {ws : List (List Byte)}
    (h : Terminated m p) (ht : tokens delims (cstr m p) = w :: ws) :
    ∃ s m' q, strtokR delims m p = (some s, m', q) ∧ Terminated m' s ∧ cstr m' s = w ∧
      p ≤ s ∧ s + w.length ≤ q ∧ Terminated m' q ∧ tokens delims (cstr m' q) = ws ∧
      ∀ i, i ≤ p → m'[i]? = m[i]? := by
  obtain ⟨ds, v, r, hs, hds, hv, hd, hc, hr, hrest⟩ := word_split delims (cstr m p)
  have hlt : p + (cstr m p).length < m.length := h
  have hlen : (cstr m p).length = ds.length + (v.length + r.length) := by
    rw [hs, List.length_append, List.length_append]
  rw [hs, tokens_delims_append _ _ _ hd] at ht
  have hne : v ≠ [] := by
    intro h0
    rw [h0, hr h0, List.nil_append, tokens_nil] at ht
    exact absurd ht.symm (List.cons_ne_nil _ _)
  have hvpos : 0 < v.length := List.length_pos_iff.mpr hne
  have hstart : cstr m (p + ds.length) = v ++ r := by
    rw [cstr_add m p _ h (by omega), hs, List.drop_left]
  have hts : Terminated m (p + ds.length) := terminated_add m p _ h (by omega)
  have hend : cstr m (p + ds.length + v.length) = r := by
    rw [cstr_add m _ _ hts (by rw [hstart, List.length_append]; omega), hstart, List.drop_left]
  have hv0 : v ++ r ≠ [] := by simp [hne]
  rcases hrest with rfl | ⟨d, t, rfl, hdd⟩
  · -- the word runs up to the NUL: nothing is written
    rw [List.append_nil, tokens_word _ _ hne hc] at ht
    obtain ⟨rfl, rfl⟩ := List.cons.inj ht
    refine ⟨p + ds.length, m, p + ds.length + v.length, ?_, hts, ?_, by omega, le_refl _, ?_, ?_, ?_⟩
    · simp only [strtokR, ← hds, hstart, ← hv, hend, if_neg hv0, ↓reduceIte]
    · rw [hstart, List.append_nil]
    · exact terminated_add m _ _ hts (by rw [hstart, List.length_append]; omega)
    · rw [hend, tokens_nil]
    · intro i _
      rfl
  · -- the word ends at the delimiter `d`, which becomes its NUL
    rw [tokens_word_append _ _ _ _ hne hc hdd] at ht
    obtain ⟨rfl, rfl⟩ := List.cons.inj ht
    simp only [List.length_cons] at hlen
    have hdrop : m.drop (p + ds.length) =
        v ++ d :: (t ++ 0 :: m.drop (p + (cstr m p).length + 1)) := by
      have hm := cstr_decompose m _ hts
      rw [hstart, List.append_assoc, List.cons_append] at hm
      rw [hm]
      congr 5
      simp only [List.length_append, List.length_cons]
      omega
    have hnew : (m.set (p + ds.length + v.length) 0).drop (p + ds.length) =
        v ++ 0 :: (t ++ 0 :: m.drop (p + (cstr m p).length + 1)) := by
      rw [List.drop_set, if_neg (by omega), hdrop]
      simp
    have hnewr : (m.set (p + ds.length + v.length) 0).drop (p + ds.length + v.length + 1) =
        t ++ 0 :: m.drop (p + (cstr m p).length + 1) := by
      rw [Nat.add_assoc, ← List.drop_drop, hnew, List.drop_length_add_append]
      rfl
    have hnul : ∀ c ∈ v ++ d :: t, c ≠ 0 := by
      rw [← hstart]
      exact cstr_ne_nul m _
    have htok : cstr (m.set (p + ds.length + v.length) 0) (p + ds.length) = v :=
      cstr_eq_of_append hnew (fun c hc => hnul c (by simp [hc]))
    have hleft : cstr (m.set (p + ds.length + v.length) 0) (p + ds.length + v.length + 1) = t :=
      cstr_eq_of_append hnewr (fun c hc => hnul c (by simp [hc]))
    refine ⟨p + ds.length, m.set (p + ds.length + v.length) 0, p + ds.length + v.length + 1,
      ?_, ?_, htok, by omega, by omega, ?_, by rw [hleft], ?_⟩
    · simp only [strtokR, ← hds, hstart, ← hv, hend, if_neg hv0, reduceCtorEq, ↓reduceIte]
    · unfold Terminated
      rw [htok, List.length_set]
      omega
    · unfold Terminated
      rw [hleft, List.length_set]
      omega
    · intro i hi
      rw [List.getElem?_set_ne (by omega)]

/-- `strcpy` into an array: `none` when the string and its NUL do not fit. -/
def strcpy (dst src : List Byte) : Option (List Byte) :=
  if src.length < dst.length then some (src ++ 0 :: dst.drop (src.length + 1)) else none

theorem strcpy_eq_some {dst src m : List Byte} (h : strcpy dst src = some m)
    (hs : ∀ c ∈ src, c ≠ 0) : cstr m 0 = src ∧ Terminated m 0 := by
  unfold strcpy at h
  split at h
  · rename_i hlt
    rw [Option.some.injEq] at h
    subst h
    have hc : cstr (src ++ 0 :: dst.drop (src.length + 1)) 0 = src :=
      cstr_eq_of_append List.drop_zero hs
    refine ⟨hc, ?_⟩
    unfold Terminated
    rw [hc, List.length_append, List.length_cons]
    omega
  · exact absurd h (by simp)

end CString
