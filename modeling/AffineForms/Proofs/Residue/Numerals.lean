import AffineForms.Residue.Numeral

/-!
# Numerals read back — the written form of a number determines it

A numeral is written from the bytes of a number, most significant byte first, without its leading
zeros.  `Numeral.ofBytes_eq` says what that comes to for lists of bytes of any length: the decimal
digits of a number that fits into a word, and the hexadecimal digits after `0x` of any other
(`Numeral.ofNat`).

`Numeral.read?` reads numerals of both kinds, and `Numeral.read?_ofNat` is the way back.  The two
kinds do not get mixed up, although a hexadecimal numeral starts with a decimal digit, because no
decimal digit is written `x`.
-/

namespace AffineForms

/-! ## Bytes from the top -/

namespace Bytes

theorem toNat_append (a b : List UInt8) :
    toNat (a ++ b) = toNat a + capacity a.length * toNat b := by
  induction a with
  | nil => simp [toNat, capacity]
  | cons x a ih =>
      simp only [List.cons_append, toNat, List.length_cons, capacity, ih, Nat.mul_add]
      rw [Nat.add_assoc, Nat.mul_assoc]

theorem toNat_eq_zero_iff {bytes : List UInt8} :
    toNat bytes = 0 ↔ bytes.all (· == 0) = true := by
  induction bytes with
  | nil => simp [toNat]
  | cons x bytes ih =>
      have hx : x.toNat = 0 ↔ x = 0 := ⟨fun h => UInt8.toNat.inj h, fun h => h ▸ rfl⟩
      rw [List.all_cons, Bool.and_eq_true, ← ih, beq_iff_eq, ← hx, toNat]
      omega

/-- The number whose digits in base 256 are those of `n`, followed by the bytes. -/
def extendNat (n : Nat) (bytes : List UInt8) : Nat :=
  bytes.foldl (fun n b => 256 * n + b.toNat) n

theorem extendNat_reverse (bytes : List UInt8) : extendNat 0 bytes.reverse = toNat bytes := by
  induction bytes with
  | nil => rfl
  | cons x bytes ih =>
      rw [extendNat] at ih
      rw [extendNat, List.reverse_cons, List.foldl_append, ih, toNat, Nat.add_comm]
      rfl

theorem capacity_le_wordSize : ∀ n ≤ 8, capacity n ≤ wordSize := by decide

end Bytes

namespace Numeral

/-! ## Hexadecimal digits -/

theorem toDigits_append_digitChar {base n d : Nat} (hbase : 1 < base) (hn : 0 < n) (hd : d < base) :
    Nat.toDigits base n ++ [d.digitChar] = Nat.toDigits base (base * n + d) := by
  rw [← Nat.toDigits_of_lt_base hd, Nat.toDigits_append_toDigits hbase hn hd]

theorem toDigits_append_bytePair {n : Nat} (hn : 0 < n) (b : UInt8) :
    Nat.toDigits 16 n ++ bytePair b = Nat.toDigits 16 (256 * n + b.toNat) := by
  have hb : b.toNat < 256 := b.toNat_lt
  have hhigh : b.toNat / 16 < 16 := by omega
  have hlow : b.toNat % 16 < 16 := by omega
  calc
    Nat.toDigits 16 n ++ bytePair b
        = (Nat.toDigits 16 n ++ [(b.toNat / 16).digitChar]) ++ [(b.toNat % 16).digitChar] := by
          rw [List.append_assoc]
          rfl
    _ = Nat.toDigits 16 (16 * (16 * n + b.toNat / 16) + b.toNat % 16) := by
          rw [toDigits_append_digitChar (by decide) hn hhigh,
            toDigits_append_digitChar (by decide) (by omega) hlow]
    _ = Nat.toDigits 16 (256 * n + b.toNat) := by
          congr 1
          omega

theorem toDigits_append_flatMap {n : Nat} (hn : 0 < n) (bytes : List UInt8) :
    Nat.toDigits 16 n ++ bytes.flatMap bytePair = Nat.toDigits 16 (Bytes.extendNat n bytes) := by
  induction bytes generalizing n with
  | nil => simp [Bytes.extendNat]
  | cons b bytes ih =>
      rw [List.flatMap_cons, ← List.append_assoc, toDigits_append_bytePair hn, ih (by omega)]
      rfl

/-- Leading zero bytes do not count, and all other digits are written. -/
theorem significant_dropWhile {bytes : List UInt8} (h : 0 < Bytes.extendNat 0 bytes) :
    significant (bytes.dropWhile (· == 0)) = Nat.toDigits 16 (Bytes.extendNat 0 bytes) := by
  induction bytes with
  | nil => exact absurd h (by decide)
  | cons b bytes ih =>
      by_cases hb : b = 0
      · subst hb
        exact ih h
      · have hpos : 0 < b.toNat := Nat.pos_of_ne_zero fun hzero => hb (UInt8.toNat.inj hzero)
        have hkeep : (b :: bytes).dropWhile (· == 0) = b :: bytes :=
          List.dropWhile_cons_of_neg (by simpa using hb)
        rw [hkeep, significant, toDigits_append_flatMap hpos, Bytes.extendNat, Bytes.extendNat,
          List.foldl_cons, Nat.mul_zero, Nat.zero_add]

/-! ## Written forms -/

/-- The written form of a number: decimal digits below the size of a word, and hexadecimal digits
after `0x` from there on. -/
def ofNat (n : Nat) : List Char :=
  if n < wordSize then decimal n else '0' :: 'x' :: Nat.toDigits 16 n

theorem ofBytes_eq (bytes : List UInt8) : ofBytes bytes = ofNat (Bytes.toNat bytes) := by
  have hsplit : Bytes.toNat bytes = Bytes.toNat (bytes.take 8) +
      Bytes.capacity (bytes.take 8).length * Bytes.toNat (bytes.drop 8) := by
    rw [← Bytes.toNat_append, List.take_append_drop]
  unfold ofBytes ofNat
  by_cases hzero : (bytes.drop 8).all (· == 0) = true
  · -- The number is that of the first eight bytes, which is a word.
    have hlow : Bytes.toNat (bytes.take 8) < wordSize :=
      Nat.lt_of_lt_of_le (Bytes.toNat_lt _)
        (Bytes.capacity_le_wordSize _ (by rw [List.length_take]; omega))
    rw [Bytes.toNat_eq_zero_iff.2 hzero, Nat.mul_zero, Nat.add_zero] at hsplit
    rw [if_pos hzero, hsplit, if_pos hlow]
  · -- There are more than eight bytes, and the others contribute at least one word.
    have hhigh : 0 < Bytes.toNat (bytes.drop 8) :=
      Nat.pos_of_ne_zero fun h => hzero (Bytes.toNat_eq_zero_iff.1 h)
    have hlong : ¬ bytes.length ≤ 8 := fun hshort => by
      simp [List.drop_of_length_le hshort] at hzero
    have hlength : (bytes.take 8).length = 8 := by
      rw [List.length_take]
      omega
    have hle : wordSize ≤ Bytes.toNat bytes := by
      rw [hsplit, hlength]
      exact Nat.le_trans (Nat.le_mul_of_pos_right wordSize hhigh) (Nat.le_add_left _ _)
    have hpos : 0 < Bytes.extendNat 0 bytes.reverse := by
      rw [Bytes.extendNat_reverse]
      exact Nat.lt_of_lt_of_le (by decide) hle
    rw [if_neg hzero, if_neg (Nat.not_lt.2 hle), significant_dropWhile hpos,
      Bytes.extendNat_reverse]

theorem exists_digitChar_of_mem_toDigits {base n : Nat} (hbase : 1 < base) {c : Char}
    (hc : c ∈ Nat.toDigits base n) : ∃ d < base, c = d.digitChar := by
  induction n using Nat.strongRecOn with
  | ind n ih =>
      rw [Nat.toDigits_eq_if hbase] at hc
      split at hc
      · rename_i hlt
        exact ⟨n, hlt, List.mem_singleton.1 hc⟩
      · rcases List.mem_append.1 hc with hc | hc
        · exact ih (n / base) (Nat.div_lt_self (by omega) hbase) hc
        · exact ⟨n % base, Nat.mod_lt _ (by omega), List.mem_singleton.1 hc⟩

theorem isAlphanum_of_mem_toDigits {base n : Nat} (hbase : 1 < base) (hmax : base ≤ 16) {c : Char}
    (hc : c ∈ Nat.toDigits base n) : c.isAlphanum = true := by
  have hdigit : ∀ d < 16, (Nat.digitChar d).isAlphanum = true := by decide
  obtain ⟨d, hd, rfl⟩ := exists_digitChar_of_mem_toDigits hbase hc
  exact hdigit d (by omega)

theorem isAlphanum_of_mem_ofNat {n : Nat} {c : Char} (hc : c ∈ ofNat n) : c.isAlphanum = true := by
  unfold ofNat at hc
  split at hc
  · exact isAlphanum_of_mem_toDigits (by decide) (by decide) hc
  · rcases List.mem_cons.1 hc with rfl | hc
    · decide
    · rcases List.mem_cons.1 hc with rfl | hc
      · decide
      · exact isAlphanum_of_mem_toDigits (by decide) (by decide) hc

theorem ofNat_ne_nil (n : Nat) : ofNat n ≠ [] := by
  unfold ofNat
  split
  · exact Nat.toDigits_ne_nil
  · exact List.cons_ne_nil _ _

/-- A numeral starts with a decimal digit. -/
theorem head?_ofNat (n : Nat) : ∀ c ∈ (ofNat n).head?, c.isDigit = true := by
  intro c hc
  unfold ofNat at hc
  split at hc
  · exact Nat.isDigit_of_mem_toDigits (by decide) (by decide) (List.mem_of_mem_head? hc)
  · cases hc
    decide

/-! ## Reading -/

/-- The digit of a base that a character stands for. -/
def digit? (base : Nat) (c : Char) : Option Nat :=
  (List.range base).find? fun d => d.digitChar == c

/-- Reads a number from its digits, of which there has to be one at least. -/
def readDigits? (base : Nat) (text : List Char) : Option Nat :=
  if text.isEmpty then none
  else text.foldlM (fun n c => (digit? base c).map fun d => base * n + d) 0

/-- Reads hexadecimal digits after `0x`, and decimal digits without it. -/
def read? : List Char → Option Nat
  | '0' :: 'x' :: digits => readDigits? 16 digits
  | digits => readDigits? 10 digits

theorem digit?_digitChar {base d : Nat} (hd : d < base) (hmax : base ≤ 16) :
    digit? base d.digitChar = some d := by
  have hinj : ∀ i < 16, ∀ j < 16, i.digitChar = j.digitChar → i = j := by decide
  refine List.find?_range_eq_some.2 ⟨by simp, List.mem_range.2 hd, fun j hj => ?_⟩
  have hne : j.digitChar ≠ d.digitChar := fun h =>
    Nat.ne_of_lt hj (hinj j (by omega) d (by omega) h)
  simpa using hne

theorem foldlM_toDigits {base : Nat} (hbase : 1 < base) (hmax : base ≤ 16) (n : Nat) :
    (Nat.toDigits base n).foldlM (fun n c => (digit? base c).map fun d => base * n + d) 0 =
      some n := by
  induction n using Nat.strongRecOn with
  | ind n ih =>
      rw [Nat.toDigits_eq_if hbase]
      split
      · rename_i hlt
        simp [digit?_digitChar hlt hmax]
      · have hlast : n % base < base := Nat.mod_lt n (by omega)
        have hfront := ih (n / base) (Nat.div_lt_self (by omega) hbase)
        simp [List.foldlM_append, hfront, digit?_digitChar hlast hmax, Nat.div_add_mod]

theorem readDigits?_toDigits {base : Nat} (hbase : 1 < base) (hmax : base ≤ 16) (n : Nat) :
    readDigits? base (Nat.toDigits base n) = some n := by
  have hne : ¬ (Nat.toDigits base n).isEmpty = true := by simp [Nat.toDigits_ne_nil]
  rw [readDigits?, if_neg hne, foldlM_toDigits hbase hmax]

theorem read?_of_not_mem {text : List Char} (h : 'x' ∉ text) :
    read? text = readDigits? 10 text := by
  unfold read?
  split
  · simp at h
  · rfl

theorem read?_ofNat (n : Nat) : read? (ofNat n) = some n := by
  unfold ofNat
  split
  · have hx : 'x' ∉ decimal n := fun h =>
      absurd (Nat.isDigit_of_mem_toDigits (by decide) (by decide) h) (by decide)
    rw [read?_of_not_mem hx]
    exact readDigits?_toDigits (by decide) (by decide) n
  · exact readDigits?_toDigits (by decide) (by decide) n

end Numeral

/-! ## Residues -/

theorem Residue.numeral_eq {M : Modulus} (x : Residue M) : x.numeral = Numeral.ofNat x.val := by
  unfold numeral
  split
  · rename_i hwidth
    -- A modulus of one word is below half the size of a word.
    have hword : x.val < wordSize := by
      have hlt := M.twice_lt
      rw [hwidth] at hlt
      have hval := x.isLt
      simp only [Width.size] at hlt
      omega
    rw [Numeral.ofNat, if_pos hword]
  · rw [Numeral.ofBytes_eq, Residue.toNat_encode]

end AffineForms
