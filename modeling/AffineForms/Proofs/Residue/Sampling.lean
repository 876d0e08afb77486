import Mathlib.Data.Nat.Size
import Mathlib.Data.Set.Card
import Mathlib.Data.Stream.Init
import Mathlib.Logic.Equiv.Basic
import Mathlib.Order.Interval.Finset.Nat
import AffineForms.Proofs.Residue.Arithmetic
import AffineForms.Residue.Sampling

/-!
# Sampling — the first accepted word, and why no residue is preferred

A candidate is what the division of a word by `2 ^ sampleShift` leaves, so the words with a given
candidate are an interval of `2 ^ sampleShift` numbers, and those with a candidate below a bound are
an interval as well (`Modulus.ncard_candidate_mem_Ico`).  The candidates are the numbers of
`bitLength` bits, and the modulus is more than half of these.

`Residue.sample?` answers the candidate of the first word that is accepted, and has then consumed
the words up to this one (`Residue.sample?_take_eq_some_iff`).

That the whole run is unbiased is a symmetry.  `Modulus.exchange` exchanges two candidates in a word
and keeps the bits below.  Done to all words, this exchanges two residues in the answer and does not
change when the answer is given (`Residue.sample?_map_exchange`).  So as many lists of words lead to
the one residue as to the other.
-/

namespace AffineForms

namespace Modulus

variable (M : Modulus)

/-! ## The bits of a candidate -/

theorem value_sub_one_ne_zero : M.value - 1 ≠ 0 := by
  have htwo := M.two_le
  omega

theorem bitLength_eq_size : M.bitLength = (M.value - 1).size := by
  refine le_antisymm ?_ (Nat.size_le.2 Nat.lt_log2_self)
  exact Nat.lt_size.2 (Nat.log2_self_le M.value_sub_one_ne_zero)

theorem value_le_two_pow_bitLength : M.value ≤ 2 ^ M.bitLength := by
  have hlt : M.value - 1 < 2 ^ M.bitLength := Nat.lt_log2_self
  omega

theorem two_pow_bitLength_lt : 2 ^ M.bitLength < 2 * M.value := by
  have hle : 2 ^ (M.value - 1).log2 ≤ M.value - 1 := Nat.log2_self_le M.value_sub_one_ne_zero
  have htwo := M.two_le
  rw [bitLength, pow_succ]
  omega

theorem candidate_eq_div (word : UInt64) : M.candidate word = word.toNat / 2 ^ M.sampleShift :=
  Nat.shiftRight_eq_div_pow _ _

theorem sampleShift_le : M.sampleShift ≤ 63 := by
  rw [sampleShift, bitLength]
  omega

section Word

variable {M} (hM : M.width = .word)

include hM

theorem bitLength_le : M.bitLength ≤ 63 := by
  have hsize : 2 * M.value < 2 ^ 64 := by
    have htwice := M.twice_lt
    rwa [hM] at htwice
  rw [bitLength_eq_size, Nat.size_le]
  omega

theorem sampleShift_pos : 1 ≤ M.sampleShift := by
  have hle := bitLength_le hM
  rw [sampleShift]
  omega

theorem two_pow_bitLength_mul : 2 ^ M.bitLength * 2 ^ M.sampleShift = 2 ^ 64 := by
  have hle := bitLength_le hM
  rw [← pow_add, sampleShift, Nat.add_sub_cancel' (by omega)]

/-! ## Counting words -/

/-- The words with a candidate from an interval are the multiples of `2 ^ sampleShift` from that
interval, together with the numbers up to the next one. -/
theorem ncard_candidate_mem_Ico (low : ℕ) {high : ℕ} (hhigh : high ≤ 2 ^ M.bitLength) :
    {word | M.candidate word ∈ Finset.Ico low high}.ncard = (high - low) * 2 ^ M.sampleShift := by
  have hpos : 0 < 2 ^ M.sampleShift := Nat.two_pow_pos _
  have himage : UInt64.toNat '' {word | M.candidate word ∈ Finset.Ico low high} =
      Finset.Ico (low * 2 ^ M.sampleShift) (high * 2 ^ M.sampleShift) := by
    ext n
    simp only [Set.mem_image, Set.mem_ofPred_eq, Finset.coe_Ico, Set.mem_Ico, Finset.mem_Ico,
      candidate_eq_div, Nat.le_div_iff_mul_le hpos, Nat.div_lt_iff_lt_mul hpos]
    constructor
    · rintro ⟨word, hword, rfl⟩
      exact hword
    · intro hn
      -- The numbers of the interval are words.
      have hsize : high * 2 ^ M.sampleShift ≤ 2 ^ 64 := by
        rw [← two_pow_bitLength_mul hM]
        exact Nat.mul_le_mul_right _ hhigh
      have hword : (UInt64.ofNat n).toNat = n := UInt64.toNat_ofNat_of_lt' (hn.2.trans_le hsize)
      exact ⟨UInt64.ofNat n, by rwa [hword], hword⟩
  have hinj : Function.Injective UInt64.toNat := fun _ _ => UInt64.toNat.inj
  rw [← Set.ncard_image_of_injective _ hinj, himage, Set.ncard_coe_finset, Nat.card_Ico,
    Nat.sub_mul]

theorem ncard_candidate_eq {v : ℕ} (hv : v < M.value) :
    {word | M.candidate word = v}.ncard = 2 ^ M.sampleShift := by
  have hhigh : v + 1 ≤ 2 ^ M.bitLength := Nat.le_trans hv M.value_le_two_pow_bitLength
  have hcount := ncard_candidate_mem_Ico hM v hhigh
  simpa [Nat.Ico_succ_singleton] using hcount

theorem ncard_candidate_lt :
    {word | M.candidate word < M.value}.ncard = M.value * 2 ^ M.sampleShift := by
  simpa using ncard_candidate_mem_Ico hM 0 M.value_le_two_pow_bitLength

/-- More than half of the words are accepted. -/
theorem two_pow_lt_ncard_candidate_lt :
    2 ^ 64 < 2 * {word | M.candidate word < M.value}.ncard := by
  have hlt : 2 ^ M.bitLength * 2 ^ M.sampleShift < 2 * M.value * 2 ^ M.sampleShift :=
    Nat.mul_lt_mul_of_pos_right M.two_pow_bitLength_lt (Nat.two_pow_pos _)
  rwa [two_pow_bitLength_mul hM, Nat.mul_assoc, ← ncard_candidate_lt hM] at hlt

end Word

/-- The shift stays below the width of a word, so words are shifted as numbers are. -/
theorem toNat_shiftRight_sampleShift (word : UInt64) :
    (word >>> UInt64.ofNat M.sampleShift).toNat = M.candidate word := by
  have hle := M.sampleShift_le
  have hshift : (UInt64.ofNat M.sampleShift).toNat = M.sampleShift :=
    UInt64.toNat_ofNat_of_lt' (hle.trans_lt (by decide))
  rw [UInt64.toNat_shiftRight, hshift, Nat.mod_eq_of_lt (by omega), candidate]

end Modulus

/-! ## The first accepted word -/

namespace Residue

variable {M : Modulus}

theorem sample?_take_eq_some_iff (words : Stream' UInt64) (n : ℕ) (x : Residue M) (used : ℕ) :
    sample? (words.take n) = some (x, used) ↔
      ∃ k < n, used = k + 1 ∧ x.val = M.candidate (words.get k) ∧
        ∀ j < k, M.value ≤ M.candidate (words.get j) := by
  induction n generalizing words used with
  | zero => simp [sample?]
  | succ n ih =>
      rw [Stream'.take_succ, sample?]
      by_cases haccepted : M.candidate words.head < M.value
      · rw [dif_pos haccepted]
        constructor
        · intro h
          cases h
          exact ⟨0, n.succ_pos, rfl, rfl, fun j hj => absurd hj j.not_lt_zero⟩
        · rintro ⟨k, -, rfl, hx, hrejected⟩
          cases k with
          | zero =>
              obtain rfl : x = ⟨M.candidate words.head, haccepted⟩ := Residue.ext hx
              rfl
          | succ k => exact absurd (hrejected 0 k.succ_pos) (Nat.not_le_of_lt haccepted)
      · rw [dif_neg haccepted, Option.map_eq_some_iff]
        constructor
        · rintro ⟨⟨y, rest⟩, hrest, h⟩
          cases h
          obtain ⟨k, hk, rfl, hx, hrejected⟩ := (ih words.tail rest).1 hrest
          refine ⟨k + 1, Nat.succ_lt_succ hk, rfl, hx, fun j hj => ?_⟩
          cases j with
          | zero => exact Nat.le_of_not_lt haccepted
          | succ j => exact hrejected j (Nat.lt_of_succ_lt_succ hj)
        · rintro ⟨k, hk, rfl, hx, hrejected⟩
          cases k with
          | zero => exact absurd (hx ▸ x.isLt) haccepted
          | succ k =>
              have hrest : sample? (words.tail.take n) = some (x, k + 1) :=
                (ih words.tail (k + 1)).2 ⟨k, Nat.lt_of_succ_lt_succ hk, rfl, hx,
                  fun j hj => hrejected (j + 1) (Nat.succ_lt_succ hj)⟩
              exact ⟨(x, k + 1), hrest, rfl⟩

theorem sample?_take_eq_none_iff (words : Stream' UInt64) (n : ℕ) :
    sample? (M := M) (words.take n) = none ↔ ∀ j < n, M.value ≤ M.candidate (words.get j) := by
  induction n generalizing words with
  | zero => simp [sample?]
  | succ n ih =>
      rw [Stream'.take_succ, sample?, Nat.forall_lt_succ_left]
      by_cases haccepted : M.candidate words.head < M.value
      · rw [dif_pos haccepted]
        constructor
        · intro h
          cases h
        · rintro ⟨hrejected, -⟩
          exact absurd haccepted (Nat.not_lt_of_le hrejected)
      · rw [dif_neg haccepted, Option.map_eq_none_iff, ih]
        exact (and_iff_right (Nat.le_of_not_lt haccepted)).symm

end Residue

/-! ## Exchanging two residues -/

namespace Modulus

variable {M : Modulus}

/-- Exchanges two candidates in a word, and keeps the bits below the candidate. -/
def exchange (x y : Residue M) (word : UInt64) : UInt64 :=
  .ofNat (Equiv.swap x.val y.val (M.candidate word) * 2 ^ M.sampleShift +
    word.toNat % 2 ^ M.sampleShift)

section Word

variable (hM : M.width = .word) (x y : Residue M) (word : UInt64)

include hM

theorem swap_candidate_lt : Equiv.swap x.val y.val (M.candidate word) < 2 ^ M.bitLength := by
  have hcandidate : M.candidate word < 2 ^ M.bitLength := by
    rw [candidate_eq_div, Nat.div_lt_iff_lt_mul (Nat.two_pow_pos _), two_pow_bitLength_mul hM]
    exact word.toNat_lt
  rw [Equiv.swap_apply_def]
  split
  · exact y.isLt.trans_le M.value_le_two_pow_bitLength
  · split
    · exact x.isLt.trans_le M.value_le_two_pow_bitLength
    · exact hcandidate

theorem toNat_exchange :
    (exchange x y word).toNat = Equiv.swap x.val y.val (M.candidate word) * 2 ^ M.sampleShift +
      word.toNat % 2 ^ M.sampleShift := by
  refine UInt64.toNat_ofNat_of_lt' ?_
  calc
    Equiv.swap x.val y.val (M.candidate word) * 2 ^ M.sampleShift + word.toNat % 2 ^ M.sampleShift
        < (Equiv.swap x.val y.val (M.candidate word) + 1) * 2 ^ M.sampleShift := by
          rw [Nat.succ_mul]
          exact Nat.add_lt_add_left (Nat.mod_lt _ (Nat.two_pow_pos _)) _
    _ ≤ 2 ^ M.bitLength * 2 ^ M.sampleShift :=
          Nat.mul_le_mul_right _ (swap_candidate_lt hM x y word)
    _ = UInt64.size := two_pow_bitLength_mul hM

theorem candidate_exchange :
    M.candidate (exchange x y word) = Equiv.swap x.val y.val (M.candidate word) := by
  rw [candidate_eq_div, toNat_exchange hM, Nat.mul_comm, Nat.mul_add_div (Nat.two_pow_pos _),
    Nat.div_eq_of_lt (Nat.mod_lt _ (Nat.two_pow_pos _)), Nat.add_zero]

theorem exchange_exchange : exchange x y (exchange x y word) = word := by
  apply UInt64.toNat.inj
  rw [toNat_exchange hM, candidate_exchange hM, Equiv.swap_apply_self, toNat_exchange hM,
    Nat.mul_add_mod_self_right, Nat.mod_mod, candidate_eq_div, Nat.div_add_mod']

end Word

end Modulus

namespace Residue

section Word

variable {M : Modulus} (hM : M.width = .word)

include hM

/-- Exchanging two candidates in all words exchanges two residues in the answer, and changes nothing
else about it. -/
theorem sample?_map_exchange (x y : Residue M) (words : List UInt64) :
    sample? (words.map (Modulus.exchange x y)) =
      (sample? words).map (Prod.map (Equiv.swap x y) id) := by
  have hval : Function.Injective (val : Residue M → ℕ) := fun _ _ => ext
  induction words with
  | nil => rfl
  | cons word words ih =>
      have hexchange := Modulus.candidate_exchange hM x y word
      rw [List.map_cons, sample?, sample?]
      by_cases haccepted : M.candidate word < M.value
      · have hswap : M.candidate (Modulus.exchange x y word) =
            (Equiv.swap x y ⟨M.candidate word, haccepted⟩).val :=
          hexchange.trans (hval.swap_apply x y ⟨M.candidate word, haccepted⟩)
        rw [dif_pos (hswap ▸ Residue.isLt _), dif_pos haccepted]
        exact congrArg (fun z => some (z, 1)) (ext hswap)
      · -- A candidate that is rejected is neither of the two residues.
        have hkept : M.candidate (Modulus.exchange x y word) = M.candidate word := by
          rw [hexchange]
          refine Equiv.swap_apply_of_ne_of_ne ?_ ?_
          · exact fun h => haccepted (h ▸ x.isLt)
          · exact fun h => haccepted (h ▸ y.isLt)
        rw [dif_neg (hkept ▸ haccepted), dif_neg haccepted, ih, Option.map_map, Option.map_map]
        rfl

theorem encard_runs_le (n used : ℕ) (x y : Residue M) :
    {words : List UInt64 | words.length = n ∧ sample? words = some (x, used)}.encard ≤
      {words : List UInt64 | words.length = n ∧ sample? words = some (y, used)}.encard := by
  have hinj : Function.Injective (List.map (Modulus.exchange x y)) :=
    List.map_injective_iff.2
      (Function.LeftInverse.injective (Modulus.exchange_exchange hM x y))
  -- The exchanged lists are among those that answer `y`, and no two of them are equal.
  rw [← hinj.encard_image]
  refine Set.encard_le_encard ?_
  rintro _ ⟨words, ⟨hlength, hrun⟩, rfl⟩
  refine ⟨by rw [List.length_map, hlength], ?_⟩
  rw [sample?_map_exchange hM, hrun, Option.map_some, Prod.map_apply, Equiv.swap_apply_left, id]

end Word

/-- For every modulus `p` from two up to below `2 ^ 63`, a candidate is made of the top bits of a
word, as many as `p - 1` has, and the shift is at least one and less than the width of a word.  From
a stream of words the answer is the candidate of the first word with a candidate below `p`; the
words up to this one are consumed, and no others.  Every residue is the candidate of equally many
words, and more than half of all words are accepted.  So among the lists of words of any length that
lead to an answer after a given number of words, as many answer the one residue as the other. -/
theorem sampling_unbiased {p : ℕ} (hlow : 2 ≤ p) (hhigh : p < 2 ^ 63) :
    ∃ M : Modulus, Modulus.word? p = some M ∧ M.value = p ∧
      M.bitLength = (p - 1).size ∧ M.sampleShift = 64 - (p - 1).size ∧
      1 ≤ M.sampleShift ∧ M.sampleShift ≤ 63 ∧
      (∀ word : UInt64, M.candidate word = word.toNat / 2 ^ (64 - (p - 1).size) ∧
        (word >>> UInt64.ofNat M.sampleShift).toNat = M.candidate word) ∧
      (∀ (words : Stream' UInt64) (n : ℕ),
        (∀ (x : Residue M) (used : ℕ), sample? (words.take n) = some (x, used) ↔
          ∃ k < n, used = k + 1 ∧ x.val = M.candidate (words.get k) ∧
            ∀ j < k, p ≤ M.candidate (words.get j)) ∧
          (sample? (M := M) (words.take n) = none ↔
            ∀ j < n, p ≤ M.candidate (words.get j))) ∧
      (∀ v < p, {word | M.candidate word = v}.ncard = 2 ^ (64 - (p - 1).size)) ∧
      2 ^ 64 < 2 * {word | M.candidate word < p}.ncard ∧
      ∀ (n used : ℕ) (x y : Residue M),
        {words : List UInt64 | words.length = n ∧ sample? words = some (x, used)}.encard =
          {words : List UInt64 | words.length = n ∧ sample? words = some (y, used)}.encard := by
  obtain ⟨M, hword, rfl, hM⟩ := Modulus.exists_word? hlow hhigh
  have hshift : M.sampleShift = 64 - (M.value - 1).size := by
    rw [← M.bitLength_eq_size, Modulus.sampleShift]
  rw [← hshift]
  exact ⟨M, hword, rfl, M.bitLength_eq_size, rfl, Modulus.sampleShift_pos hM, M.sampleShift_le,
    fun word => ⟨M.candidate_eq_div word, M.toNat_shiftRight_sampleShift word⟩,
    fun words n => ⟨sample?_take_eq_some_iff words n, sample?_take_eq_none_iff words n⟩,
    fun v hv => Modulus.ncard_candidate_eq hM hv, Modulus.two_pow_lt_ncard_candidate_lt hM,
    fun n used x y => le_antisymm (encard_runs_le hM n used x y) (encard_runs_le hM n used y x)⟩

/-- Below five, candidates have three bits.  The word of all ones has the candidate seven, which is
rejected, and the word after it the candidate three, which is the answer after two words.  Nothing
else comes out of an endless stream of ones.  Each of the five residues is the candidate of `2 ^ 61`
words. -/
theorem sampling_unbiased_five :
    let M : Modulus := ⟨5, .word, by decide, by decide⟩
    let ones : UInt64 := 0xFFFFFFFFFFFFFFFF
    let words : Stream' UInt64 := Stream'.cons ones (.cons 0x7000000000000000 (.const ones))
    let three : Residue M := ofNat 3
    let four : Residue M := ofNat 4
    2 ≤ 5 ∧ 5 < 2 ^ 63 ∧ M.sampleShift = 61 ∧
      (∀ n, 1 < n → sample? (words.take n) = some (three, 2)) ∧
      (∀ n, sample? (M := M) (Stream'.take n (.const ones)) = none) ∧
      {word | M.candidate word = 4}.ncard = 2 ^ 61 ∧
      2 ^ 64 < 2 * {word | M.candidate word < 5}.ncard ∧
      {words : List UInt64 | words.length = 3 ∧ sample? words = some (three, 2)}.encard =
        {words : List UInt64 | words.length = 3 ∧ sample? words = some (four, 2)}.encard := by
  intro M ones words three four
  have hlow : 2 ≤ 5 := by decide
  have hhigh : 5 < 2 ^ 63 := by decide
  obtain ⟨N, hN, -, -, hshift, -, -, -, hruns, hcount, haccepted, hfair⟩ :=
    sampling_unbiased hlow hhigh
  obtain rfl : M = N := Option.some.inj ((show _ = some M by rfl).symm.trans hN)
  have hbits : M.sampleShift = 61 := by decide
  rw [← hshift, hbits] at hcount
  refine ⟨hlow, hhigh, hbits, fun n hn => ?_, fun n => ?_, hcount 4 (by decide), haccepted,
    hfair 3 2 three four⟩
  · refine ((hruns words n).1 three 2).2 ⟨1, hn, rfl, by decide, fun j hj => ?_⟩
    obtain rfl : j = 0 := Nat.lt_one_iff.1 hj
    decide
  · exact (hruns _ n).2.2 fun j _ => (show 5 ≤ M.candidate ones by decide)

end Residue

end AffineForms
