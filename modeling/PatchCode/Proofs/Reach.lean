import Mathlib.Tactic
import PatchCode.Proofs.Idempotence
import PatchCode.Proofs.Plan

/-! How far the record at a word boundary reaches. It depends on two runs only: how far the bytes
are equal, and how far they repeat the first two. What a run is in a part of the bytes or with more
bytes behind them bounds how far the planner gets there, which is all that is used of it
elsewhere. -/

namespace PatchCode

namespace Plan

def Repeats (period : Nat) (bs : List UInt8) (k : Nat) : Prop :=
  k ≤ bs.length ∧ ∀ i, i + period < k → bs[i]? = bs[i + period]?

section

variable {period k : Nat} {bs ys : List UInt8}

theorem repeats_of_le (hlength : k ≤ bs.length) (h : k ≤ period) : Repeats period bs k :=
  ⟨hlength, fun i hi => by omega⟩

theorem repeats_cons {a : UInt8} : Repeats period (a :: bs) (k + 1) ↔
    Repeats period bs k ∧ (period ≤ k → (a :: bs)[period]? = some a) := by
  simp only [Repeats, List.length_cons, Nat.add_le_add_iff_right]
  constructor
  · rintro ⟨hlength, hrun⟩
    exact ⟨⟨hlength, fun i hi => by simpa [Nat.add_right_comm] using hrun (i + 1) (by omega)⟩,
      fun h => by simpa using (hrun 0 (by omega)).symm⟩
  · rintro ⟨⟨hlength, hrun⟩, hfirst⟩
    refine ⟨hlength, fun i hi => ?_⟩
    rcases i with _ | i
    · simpa using (hfirst (by omega)).symm
    · simpa [Nat.add_right_comm] using hrun i (by omega)

theorem Repeats.drop (h : Repeats period bs k) (n : Nat) : Repeats period (bs.drop n) (k - n) := by
  obtain ⟨hlength, hrun⟩ := h
  refine ⟨by rw [List.length_drop]; omega, fun i hi => ?_⟩
  rw [List.getElem?_drop, List.getElem?_drop, ← Nat.add_assoc]
  exact hrun (n + i) (by omega)

theorem repeats_append (hk : k ≤ bs.length) (ys : List UInt8) :
    Repeats period (bs ++ ys) k ↔ Repeats period bs k := by
  have hget : ∀ i, i < k → (bs ++ ys)[i]? = bs[i]? :=
    fun i hi => List.getElem?_append_left (by omega)
  simp only [Repeats, List.length_append]
  constructor
  · rintro ⟨-, hrun⟩
    exact ⟨hk, fun i hi => by rw [← hget i (by omega), ← hget _ hi]; exact hrun i hi⟩
  · rintro ⟨-, hrun⟩
    exact ⟨by omega, fun i hi => by rw [hget i (by omega), hget _ hi]; exact hrun i hi⟩

end

def equalRun : List UInt8 → Nat
  | [] => 0
  | a :: rest => (rest.takeWhile (· == a)).length + 1

def pairRun : List UInt8 → Nat
  | a :: b :: rest => alternation a b 2 rest
  | bs => bs.length

theorem equalRun_cons_cons (a b : UInt8) (rest : List UInt8) :
    equalRun (a :: b :: rest) = if b = a then equalRun (b :: rest) + 1 else 1 := by
  by_cases h : b = a <;> simp [equalRun, h]

theorem pairRun_cons_cons_cons (a b c : UInt8) (rest : List UInt8) :
    pairRun (a :: b :: c :: rest) = if c = a then pairRun (b :: c :: rest) + 1 else 2 := by
  by_cases h : c = a
  · subst h
    rw [pairRun, alternation, if_pos rfl, if_pos rfl, pairRun, alternation_eq, alternation_eq b c 2]
    omega
  · rw [pairRun, alternation, if_neg h, if_neg h]

section

variable {bs : List UInt8} {k : Nat}

theorem le_equalRun_iff : k ≤ equalRun bs ↔ Repeats 1 bs k := by
  induction bs generalizing k with
  | nil => exact ⟨fun hk => repeats_of_le hk (by simp [equalRun] at hk; omega), And.left⟩
  | cons a rest ih =>
    rcases k with _ | k
    · exact ⟨fun _ => repeats_of_le (by simp) (by simp), fun _ => Nat.zero_le _⟩
    rcases rest with _ | ⟨b, rest⟩
    · exact ⟨fun hk => repeats_of_le hk hk, And.left⟩
    rw [repeats_cons, ← ih, equalRun_cons_cons]
    have hpos : 1 ≤ equalRun (b :: rest) := by simp [equalRun]
    by_cases h : b = a
    · simp [h]
    · simp [h]
      omega

theorem le_pairRun_iff : k ≤ pairRun bs ↔ Repeats 2 bs k := by
  induction bs generalizing k with
  | nil => exact ⟨fun hk => repeats_of_le hk (by simp [pairRun] at hk; omega), And.left⟩
  | cons a rest ih =>
    rcases k with _ | k
    · exact ⟨fun _ => repeats_of_le (by simp) (by simp), fun _ => Nat.zero_le _⟩
    rcases rest with _ | ⟨b, _ | ⟨c, rest⟩⟩
    · exact ⟨fun hk => repeats_of_le hk (Nat.le_succ_of_le hk), And.left⟩
    · exact ⟨fun hk => repeats_of_le hk hk, And.left⟩
    rw [repeats_cons, ← ih, pairRun_cons_cons_cons]
    have hpos : 2 ≤ pairRun (b :: c :: rest) := by
      rw [pairRun, alternation_eq]
      omega
    by_cases h : c = a
    · simp [h]
    · simp [h]
      omega

theorem equalRun_le_length (bs : List UInt8) : equalRun bs ≤ bs.length :=
  (le_equalRun_iff.mp le_rfl).1

theorem pairRun_le_length (bs : List UInt8) : pairRun bs ≤ bs.length := (le_pairRun_iff.mp le_rfl).1

theorem sub_le_equalRun_drop (bs : List UInt8) (k : Nat) : equalRun bs - k ≤ equalRun (bs.drop k) :=
  le_equalRun_iff.mpr ((le_equalRun_iff.mp le_rfl).drop k)

theorem sub_le_pairRun_drop (bs : List UInt8) (k : Nat) : pairRun bs - k ≤ pairRun (bs.drop k) :=
  le_pairRun_iff.mpr ((le_pairRun_iff.mp le_rfl).drop k)

theorem equalRun_le_append (bs ys : List UInt8) : equalRun bs ≤ equalRun (bs ++ ys) :=
  le_equalRun_iff.mpr ((repeats_append (equalRun_le_length bs) ys).mpr (le_equalRun_iff.mp le_rfl))

theorem pairRun_le_append (bs ys : List UInt8) : pairRun bs ≤ pairRun (bs ++ ys) :=
  le_pairRun_iff.mpr ((repeats_append (pairRun_le_length bs) ys).mpr (le_pairRun_iff.mp le_rfl))

/-- A run that stops before the end stops there whatever follows. -/
theorem equalRun_append_of_lt (h : equalRun bs < bs.length) (ys : List UInt8) :
    equalRun (bs ++ ys) = equalRun bs := by
  refine le_antisymm ?_ (equalRun_le_append bs ys)
  by_contra hlt
  have hlonger : Repeats 1 bs (equalRun bs + 1) :=
    (repeats_append h ys).mp (le_equalRun_iff.mp (by omega))
  have := le_equalRun_iff.mpr hlonger
  omega

/-- Where two neighbours in a run of pairs are equal, all of them are. -/
theorem pairRun_le_equalRun (heq : 2 ≤ equalRun (bs.drop k)) (hk : k + 2 ≤ pairRun bs) :
    pairRun bs ≤ equalRun bs := by
  obtain ⟨hlength, hrun⟩ := le_pairRun_iff.mp (le_refl (pairRun bs))
  have hfirst : ∀ i, i + 1 < pairRun bs → (bs[i]? = bs[i + 1]? ↔ bs[0]? = bs[1]?) := by
    intro i
    induction i with
    | zero => simp
    | succ i ih =>
      intro hi
      rw [← ih (by omega), ← hrun i (by omega), eq_comm]
  have hneighbours : bs[k]? = bs[k + 1]? := by
    have := (le_equalRun_iff.mp heq).2 0 (by omega)
    rwa [List.getElem?_drop, List.getElem?_drop] at this
  exact le_equalRun_iff.mpr
    ⟨hlength, fun i hi => (hfirst i hi).mpr ((hfirst k (by omega)).mp hneighbours)⟩

end

def byteLength (limits : FillLimits) (u : Nat) : Nat :=
  if 5 ≤ u then wholeWords (min u limits.maxBytes) else 0

/-- How much a fill with two bytes covers, by the run of pairs and the number of bytes; only at the
end it may stop off a word boundary. -/
def halfLength (limits : FillLimits) (v n : Nat) : Nat :=
  let run := v / 2 * 2
  let fill := if n ≤ run then run else wholeWords run
  if limits.maxHalves * 2 < fill then wholeWords (limits.maxHalves * 2) else fill

def wordLength (limits : FillLimits) (u v n : Nat) : Nat :=
  if 4 ≤ byteLength limits u then byteLength limits u
  else if 4 < halfLength limits v n then halfLength limits v n
  else 4

section

-- The runs `u` and `v` among `n` bytes stand for those of the bytes, and the primed ones for those
-- of a part of them or with more bytes behind.
variable (limits : FillLimits) {u v n u' v' n' k : Nat}

theorem wordLength_cases (hn : 4 ≤ n) (hu : u ≤ n) (hv : v ≤ n) :
    (wordLength limits u v n % 4 = 0 ∧ 4 ≤ wordLength limits u v n ∧ wordLength limits u v n ≤ n) ∨
      (wordLength limits u v n % 4 = 2 ∧ wordLength limits u v n = n ∧ 6 ≤ n) := by
  simp only [wordLength, byteLength, halfLength, wholeWords]
  split_ifs <;> omega

/-- A fill with two bytes covers `c` of them, and there is no fill with one byte, which would go
before it. -/
def Halves (limits : FillLimits) (u v c : Nat) : Prop :=
  (u < 5 ∨ limits.maxBytes < 4) ∧ c ≤ v ∧ c ≤ limits.maxHalves * 2

theorem le_wordLength_iff {c : Nat} (hc : c % 4 = 0) (h8 : 8 ≤ c) :
    c ≤ wordLength limits u v n ↔ (c ≤ u ∧ c ≤ limits.maxBytes) ∨ Halves limits u v c := by
  simp only [wordLength, byteLength, halfLength, wholeWords, Halves]
  split_ifs <;> omega

theorem wordLength_eq_iff (hn : n % 4 = 2) (h6 : 6 ≤ n) (hu : u ≤ n) (hv : v ≤ n) :
    n ≤ wordLength limits u v n ↔ Halves limits u v n := by
  simp only [wordLength, byteLength, halfLength, wholeWords, Halves]
  split_ifs <;> omega

theorem wordLength_le_add (hn : k + 4 ≤ n) (hk : k % 4 = 0) (hlt : k < wordLength limits u v n)
    (hu : u ≤ n) (hv : v ≤ n) (hu' : u - k ≤ u') (hu'' : u' ≤ n - k) (hv' : v - k ≤ v')
    (hv'' : v' ≤ n - k) (heq : 2 ≤ u' → k + 2 ≤ v → v ≤ u) :
    wordLength limits u v n ≤ k + wordLength limits u' v' (n - k) := by
  have hfour : 4 ≤ wordLength limits u' v' (n - k) := by
    rcases wordLength_cases limits (by omega) hu'' hv'' with h | h <;> omega
  by_cases hshort : wordLength limits u v n ≤ k + 4
  · omega
  rcases wordLength_cases limits (by omega) hu hv with ⟨hmod, -, -⟩ | ⟨hmod, hall, h6⟩
  · have hfill := (le_wordLength_iff limits hmod (by omega)).mp le_rfl
    have hrest := le_wordLength_iff limits (u := u') (v := v') (n := n - k)
      (c := wordLength limits u v n - k) (by omega) (by omega)
    simp only [Halves] at hfill hrest
    omega
  · have hfill := (wordLength_eq_iff limits (by omega) h6 hu hv).mp hall.ge
    have hrest := wordLength_eq_iff limits (n := n - k) (by omega) (by omega) hu'' hv''
    simp only [Halves] at hfill hrest
    omega

theorem wordLength_le (hn : 4 ≤ n) (hnn' : n ≤ n') (hu : u ≤ n) (hv : v ≤ n) (hu' : u ≤ u')
    (hu'' : u' ≤ n') (hv' : v ≤ v') (hv'' : v' ≤ n') (heq : u < n → u' = u) :
    wordLength limits u v n ≤ wordLength limits u' v' n' ∨
      (wordLength limits u v n % 4 = 2 ∧
        wordLength limits u v n ≤ wordLength limits u' v' n' + 2) := by
  have hfour : 4 ≤ wordLength limits u' v' n' := by
    rcases wordLength_cases limits (by omega) hu'' hv'' with h | h <;> omega
  by_cases hshort : wordLength limits u v n ≤ 6
  · rcases wordLength_cases limits (by omega) hu hv with h | h <;> omega
  rcases wordLength_cases limits (by omega) hu hv with ⟨hmod, -, -⟩ | ⟨hmod, hall, h6⟩
  · have hfill := (le_wordLength_iff limits hmod (by omega)).mp le_rfl
    have hmore := le_wordLength_iff limits (u := u') (v := v') (n := n') hmod (by omega)
    simp only [Halves] at hfill hmore
    omega
  · have hfill := (wordLength_eq_iff limits (by omega) h6 hu hv).mp hall.ge
    have hmore :=
      le_wordLength_iff limits (u := u') (v := v') (n := n') (c := n - 2) (by omega) (by omega)
    simp only [Halves] at hfill hmore
    omega

end

def reach (limits : FillLimits) (bs : List UInt8) : Nat :=
  wordLength limits (equalRun bs) (pairRun bs) bs.length

section

variable (limits : FillLimits) {bs : List UInt8}

theorem reach_cases (h4 : 4 ≤ bs.length) :
    (reach limits bs % 4 = 0 ∧ 4 ≤ reach limits bs ∧ reach limits bs ≤ bs.length) ∨
      (reach limits bs % 4 = 2 ∧ reach limits bs = bs.length ∧ 6 ≤ bs.length) :=
  wordLength_cases limits h4 (equalRun_le_length bs) (pairRun_le_length bs)

/-- From a later word boundary the planner gets at least as far. -/
theorem reach_le_drop {k : Nat} (hk : k % 4 = 0) (hlt : k < reach limits bs)
    (h4 : k + 4 ≤ bs.length) :
    reach limits bs ≤ k + reach limits (bs.drop k) := by
  have hu := equalRun_le_length (bs.drop k)
  have hv := pairRun_le_length (bs.drop k)
  rw [List.length_drop] at hu hv
  rw [reach, reach, List.length_drop]
  exact wordLength_le_add limits h4 hk hlt (equalRun_le_length bs) (pairRun_le_length bs)
    (sub_le_equalRun_drop bs k) hu
    (sub_le_pairRun_drop bs k) hv fun heq hk => pairRun_le_equalRun heq hk

/-- With more bytes behind it gets at least as far, but for the pair that a loose record has too
much. -/
theorem reach_le_append (h4 : 4 ≤ bs.length) (ys : List UInt8) :
    reach limits bs ≤ reach limits (bs ++ ys) ∨
      (reach limits bs % 4 = 2 ∧ reach limits bs ≤ reach limits (bs ++ ys) + 2) :=
  wordLength_le limits h4 (by simp) (equalRun_le_length bs) (pairRun_le_length bs)
    (equalRun_le_append bs ys)
    (equalRun_le_length _) (pairRun_le_append bs ys) (pairRun_le_length _) fun h =>
      equalRun_append_of_lt h ys

end

theorem halfFill_eq (limits : FillLimits) (a b : UInt8) (rest : List UInt8) :
    halfFill limits a b rest = halfLength limits (pairRun (a :: b :: rest)) (rest.length + 2) := by
  have hrun : 2 ≤ alternation a b 2 rest := by
    rw [alternation_eq]
    omega
  have hend : (rest.drop (alternation a b 2 rest / 2 * 2 - 2)).isEmpty = true ↔
      rest.length + 2 ≤ alternation a b 2 rest / 2 * 2 := by
    rw [List.isEmpty_iff, List.drop_eq_nil_iff]
    omega
  by_cases hfull : rest.length + 2 ≤ alternation a b 2 rest / 2 * 2 <;>
    simp only [halfFill, halfLength, pairRun, hend, hfull, if_true, if_false]

end Plan

end PatchCode
