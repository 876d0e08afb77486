import AffineForms.Proofs.Codec.Continuation

/-!
# Streaming — what the answer for an input tells about longer and shorter inputs

A reader is `Steady` when its outcomes go on as the input does, and when it reads the same from the
bytes that it uses alone.  Decoding a whole input with such a reader is `Stable`, also where bytes
are left over: the error that is reported is the first defect of the input.

Stability speaks of the inputs that are accepted, whichever they are.  Since each valid value is
accepted from its encoding, the encoding marks where the value ends (`Delimits`): with fewer bytes
the input ends too early, and with more of them there are bytes left over.  In particular no
encoding is the beginning of another one.

`decode_streaming_stable` states both for forms and for values.
-/

namespace AffineForms

namespace Codec

variable {M : Modulus}

/-! ## Whole inputs -/

section Inputs

variable {α : Type}

/-- What an answer tells about the answers for longer inputs, and for shorter ones. -/
structure Stable (decode : List UInt8 → Except CodecFailure α) : Prop where
  settled : ∀ bytes e, decode bytes = .error (.refused e) → e.Settled →
    ∀ more, decode (bytes ++ more) = .error (.refused e)
  accepted : ∀ bytes x, decode bytes = .ok x →
    ∀ more, more ≠ [] → decode (bytes ++ more) = .error (.refused (.trailing more.length))
  trailing : ∀ bytes n, decode bytes = .error (.refused (.trailing n)) →
    1 ≤ n ∧ n ≤ bytes.length ∧
      (∀ more, decode (bytes ++ more) = .error (.refused (.trailing (n + more.length)))) ∧
      ∃ x, decode (bytes.take (bytes.length - n)) = .ok x
  starved : ∀ bytes needed remaining,
    decode bytes = .error (.refused (.unexpectedEnd needed remaining)) →
      remaining < needed ∧ ∀ more, more.length < needed - remaining →
        decode (bytes ++ more) =
          .error (.refused (.unexpectedEnd needed (remaining + more.length)))
  beginnings : ∀ bytes whole x, decode whole = .ok x → bytes <+: whole → bytes ≠ whole →
    ∃ needed remaining, decode bytes = .error (.refused (.unexpectedEnd needed remaining))

/-- The encoding of a value marks where the value ends: it is accepted, a proper beginning of it ends
too early, and bytes behind it are left over. -/
structure Delimits (decode : List UInt8 → Except CodecFailure α) (x : α) (encoding : List UInt8) :
    Prop where
  accepted : decode encoding = .ok x
  shorter : ∀ bytes, bytes <+: encoding → bytes ≠ encoding →
    ∃ needed remaining, decode bytes = .error (.refused (.unexpectedEnd needed remaining))
  longer : ∀ more, more ≠ [] →
    decode (encoding ++ more) = .error (.refused (.trailing more.length))

theorem Stable.delimits {decode : List UInt8 → Except CodecFailure α} (h : Stable decode) {x : α}
    {encoding : List UInt8} (hx : decode encoding = .ok x) : Delimits decode x encoding where
  accepted := hx
  shorter bytes := h.beginnings bytes encoding x hx
  longer := h.accepted encoding x hx

theorem complete_of_ne_nil {x : α} {rest : List UInt8} (h : rest ≠ []) :
    complete (.ok (x, rest)) = .error (.refused (.trailing rest.length)) := by
  cases rest with
  | nil => exact absurd rfl h
  | cons b rest => rfl

theorem complete_eq_refused {result : Except CodecFailure (α × List UInt8)} {e : CodecError}
    (h : complete result = .error (.refused e)) :
    result = .error (.refused e) ∨
      ∃ x rest, result = .ok (x, rest) ∧ rest ≠ [] ∧ e = .trailing rest.length := by
  rcases result with failure | ⟨x, rest⟩
  · cases h
    exact .inl rfl
  · cases rest with
    | nil => cases h
    | cons b rest =>
        cases h
        exact .inr ⟨x, b :: rest, rfl, List.cons_ne_nil b rest, rfl⟩

/-- A reader whose outcomes go on as the input does, and that reads the same from the bytes that it
uses alone. -/
structure Steady (read : List UInt8 → Except CodecFailure (α × List UInt8)) : Prop where
  continues : ∀ input more,
    Continues .refused (feed more) more.length (read input) (read (input ++ more))
  uses : ∀ input x rest, read input = .ok (x, rest) →
    ∃ used, input = used ++ rest ∧ read used = .ok (x, [])

namespace Steady

variable {read : List UInt8 → Except CodecFailure (α × List UInt8)} {bytes : List UInt8}

/-- A reader fails with a refusal: a defect, or missing bytes. -/
theorem failure_eq (h : Steady read) {failure : CodecFailure}
    (hread : read bytes = .error failure) :
    ∃ e, failure = .refused e ∧
      (e.Settled ∨ ∃ needed remaining, e = .unexpectedEnd needed remaining) := by
  -- What a failure can be does not depend on the bytes appended, so none are.
  have hcontinues := h.continues bytes []
  rw [hread] at hcontinues
  exact hcontinues.failure_eq

theorem complete_of_settled (h : Steady read) {e : CodecError}
    (hbytes : complete (read bytes) = .error (.refused e)) (he : e.Settled) (more : List UInt8) :
    complete (read (bytes ++ more)) = .error (.refused e) := by
  rcases complete_eq_refused hbytes with hread | ⟨x, rest, -, -, rfl⟩
  · have hcontinues := h.continues bytes more
    rw [hread] at hcontinues
    rw [hcontinues.eq_of_settled he]
    rfl
  · exact he.elim

theorem complete_of_ok (h : Steady read) {x : α} {rest more : List UInt8}
    (hread : read bytes = .ok (x, rest)) (hne : rest ++ more ≠ []) :
    complete (read (bytes ++ more)) =
      .error (.refused (.trailing (rest.length + more.length))) := by
  have hcontinues := h.continues bytes more
  rw [hread] at hcontinues
  rw [hcontinues.eq_of_ok, feed, complete_of_ne_nil hne, List.length_append]

/-- Bytes are left over exactly where a reader succeeds before the end. -/
theorem exists_of_trailing (h : Steady read) {n : Nat}
    (hbytes : complete (read bytes) = .error (.refused (.trailing n))) :
    ∃ x rest, read bytes = .ok (x, rest) ∧ rest ≠ [] ∧ n = rest.length := by
  rcases complete_eq_refused hbytes with hread | ⟨x, rest, hread, hrest, hn⟩
  · -- A reader never reports left-over bytes itself, as its failures are defects or missing bytes.
    obtain ⟨e, he, hdefect | ⟨needed, remaining, hstarved⟩⟩ := h.failure_eq hread
    · cases he
      exact hdefect.elim
    · cases he.trans (congrArg _ hstarved)
  · exact ⟨x, rest, hread, hrest, CodecError.trailing.inj hn⟩

theorem complete_of_starved (h : Steady read) {needed remaining : Nat}
    (hbytes : complete (read bytes) = .error (.refused (.unexpectedEnd needed remaining)))
    (more : List UInt8) :
    remaining < needed ∧ (remaining + more.length < needed →
      complete (read (bytes ++ more)) =
        .error (.refused (.unexpectedEnd needed (remaining + more.length)))) := by
  rcases complete_eq_refused hbytes with hread | ⟨x, rest, -, -, he⟩
  · have hcontinues := h.continues bytes more
    rw [hread] at hcontinues
    obtain ⟨hmissing, hafter⟩ := hcontinues.of_starved
    refine ⟨hmissing, fun hshort => ?_⟩
    rw [hafter hshort]
    rfl
  · cases he

/-- Of the bytes of an input that is accepted, a proper beginning is refused for lack of bytes: any
other answer would show in the answer for the whole. -/
theorem complete_beginning (h : Steady read) {more : List UInt8} {x : α}
    (hwhole : complete (read (bytes ++ more)) = .ok x) (hmore : more ≠ []) :
    ∃ needed remaining,
      complete (read bytes) = .error (.refused (.unexpectedEnd needed remaining)) := by
  cases hread : read bytes with
  | ok read =>
      obtain ⟨y, rest⟩ := read
      rw [h.complete_of_ok hread (by simp [hmore])] at hwhole
      cases hwhole
  | error failure =>
      obtain ⟨e, rfl, hdefect | ⟨needed, remaining, rfl⟩⟩ := h.failure_eq hread
      · have hbytes : complete (read bytes) = .error (.refused e) := by
          rw [hread]
          rfl
        rw [h.complete_of_settled hbytes hdefect] at hwhole
        cases hwhole
      · exact ⟨needed, remaining, rfl⟩

theorem stable (h : Steady read) : Stable fun bytes => complete (read bytes) where
  settled _ _ hbytes he more := h.complete_of_settled hbytes he more
  accepted bytes x hbytes more hmore := by
    rw [h.complete_of_ok (complete_eq_ok_iff.1 hbytes) hmore, List.length_nil, Nat.zero_add]
  trailing bytes n hbytes := by
    obtain ⟨x, rest, hread, hrest, rfl⟩ := h.exists_of_trailing hbytes
    obtain ⟨used, rfl, hused⟩ := h.uses bytes x rest hread
    refine ⟨List.length_pos_iff.2 hrest, by simp, fun more => ?_, x, ?_⟩
    · exact h.complete_of_ok hread (by simp [hrest])
    · have hlength : (used ++ rest).length - rest.length = used.length := by simp
      rw [hlength, List.take_left]
      exact complete_eq_ok_iff.2 hused
  starved bytes needed remaining hbytes := by
    refine ⟨(h.complete_of_starved hbytes []).1, fun more hshort => ?_⟩
    exact (h.complete_of_starved hbytes more).2 (by omega)
  beginnings bytes whole x hwhole hprefix hne := by
    obtain ⟨more, rfl⟩ := hprefix
    refine h.complete_beginning hwhole ?_
    rintro rfl
    exact hne (List.append_nil bytes).symm

end Steady

end Inputs

theorem steady_readForm :
    Steady (readForm : List UInt8 → Except CodecFailure (Form M × List UInt8)) where
  continues := continues_readForm
  uses input p rest h := by
    obtain ⟨hvalid, hsize, rfl⟩ := readForm_eq_ok_iff.1 h
    exact ⟨p.encode, rfl, readForm_eq_ok_iff.2 ⟨hvalid, hsize, (List.append_nil _).symm⟩⟩

theorem steady_readAffine :
    Steady (readAffine : List UInt8 → Except CodecFailure (Affine M × List UInt8)) where
  continues := continues_readAffine
  uses input r rest h := by
    obtain ⟨hvalid, hsize, rfl⟩ := readAffine_eq_ok_iff.1 h
    exact ⟨r.encode, rfl, readAffine_eq_ok_iff.2 ⟨hvalid, hsize, (List.append_nil _).symm⟩⟩

end Codec

/-- Decoding reports the first defect of its input, whatever follows it.  Bytes behind an encoding
are counted and refused; an input that ends too early is refused with the same need until it is met;
and every proper beginning of an accepted input ends too early.  The encodings of valid values,
whose number of terms fits into a word, are accepted: so every proper beginning of one of them ends
too early, and all bytes behind it are left over. -/
theorem decode_streaming_stable (M : Modulus) :
    Codec.Stable (Form.decode : List UInt8 → Except CodecFailure (Form M)) ∧
      Codec.Stable (Affine.decode : List UInt8 → Except CodecFailure (Affine M)) ∧
      (∀ p : Form M, p.Valid → p.size < wordSize → Codec.Delimits Form.decode p p.encode) ∧
      ∀ r : Affine M, r.Valid → r.size < wordSize → Codec.Delimits Affine.decode r r.encode := by
  have hform := (Codec.steady_readForm (M := M)).stable
  have haffine := (Codec.steady_readAffine (M := M)).stable
  refine ⟨hform, haffine, fun p hvalid hsize => ?_, fun r hvalid hsize => ?_⟩
  · exact hform.delimits (Form.decode_eq_ok_iff.2 ⟨hvalid, hsize, rfl⟩)
  · exact haffine.delimits (Affine.decode_eq_ok_iff.2 ⟨hvalid, hsize, rfl⟩)

/-- Over seven: an unknown tag is refused whatever follows it.  The encoding of the sample is
accepted, as a form and behind its tag as a value; bytes behind it are left over, and counted again
when there are more of them; and three bytes of the last coefficient are fewer than the eight it
takes.  Whatever number of bytes is missing, of the sample or of a constant, the input ends too
early. -/
theorem decode_streaming_stable_seven :
    let r := Affine.form Form.sample
    let c : Affine Modulus.seven := .constant (.ofNat 3)
    (∀ more, (Affine.decode ([7] ++ more) : Except CodecFailure (Affine Modulus.seven)) =
      .error (.refused (.invalidTag 7))) ∧
      Form.sample.Valid ∧ Form.sample.size < wordSize ∧
      Form.decode Form.sample.encode = .ok Form.sample ∧
      (Form.decode (Form.sample.encode ++ [0]) : Except CodecFailure (Form Modulus.seven)) =
        .error (.refused (.trailing 1)) ∧
      (Form.decode (Form.sample.encode.take 40) : Except CodecFailure (Form Modulus.seven)) =
        .error (.refused (.unexpectedEnd 8 0)) ∧
      (Form.decode (Form.sample.encode.take 40 ++ [5, 0, 0]) :
        Except CodecFailure (Form Modulus.seven)) = .error (.refused (.unexpectedEnd 8 3)) ∧
      Affine.decode r.encode = .ok r ∧
      (Affine.decode (r.encode ++ [0, 9]) : Except CodecFailure (Affine Modulus.seven)) =
        .error (.refused (.trailing 2)) ∧
      (Affine.decode (r.encode ++ [0, 9] ++ [5]) : Except CodecFailure (Affine Modulus.seven)) =
        .error (.refused (.trailing 3)) ∧
      (Affine.decode (r.encode.take 41) : Except CodecFailure (Affine Modulus.seven)) =
        .error (.refused (.unexpectedEnd 8 0)) ∧
      (Affine.decode (r.encode.take 41 ++ [5, 0, 0]) :
        Except CodecFailure (Affine Modulus.seven)) = .error (.refused (.unexpectedEnd 8 3)) ∧
      (∀ n < 49, ∃ needed remaining,
        (Affine.decode (r.encode.take n) : Except CodecFailure (Affine Modulus.seven)) =
          .error (.refused (.unexpectedEnd needed remaining))) ∧
      Affine.decode c.encode = .ok c ∧
      ∀ n < 9, ∃ needed remaining,
        (Affine.decode (c.encode.take n) : Except CodecFailure (Affine Modulus.seven)) =
          .error (.refused (.unexpectedEnd needed remaining)) := by
  intro r c
  obtain ⟨hform, haffine, hforms, hvalues⟩ := decode_streaming_stable Modulus.seven
  have hvalid : Form.sample.Valid := by decide
  have hsize : Form.sample.size < wordSize := by decide
  have hsample := hforms Form.sample hvalid hsize
  have hvalue := hvalues r hvalid hsize
  have hconstant := hvalues c trivial (by decide : 0 < wordSize)
  have htag : (Affine.decode [7] : Except CodecFailure (Affine Modulus.seven)) =
      .error (.refused (.invalidTag 7)) := rfl
  have hshort : (Form.decode (Form.sample.encode.take 40) :
      Except CodecFailure (Form Modulus.seven)) = .error (.refused (.unexpectedEnd 8 0)) := by
    rfl
  have hstarved : (Affine.decode (r.encode.take 41) :
      Except CodecFailure (Affine Modulus.seven)) = .error (.refused (.unexpectedEnd 8 0)) := by
    rfl
  have hleft := hvalue.longer [0, 9] (List.cons_ne_nil 0 [9])
  obtain ⟨-, -, hcounted, -⟩ := haffine.trailing _ 2 hleft
  have hfewer : ∀ {bytes : List UInt8} {n : Nat}, n < bytes.length → bytes.take n ≠ bytes := by
    intro bytes n hn htake
    have hlength := congrArg List.length htake
    rw [List.length_take] at hlength
    omega
  refine ⟨haffine.settled _ _ htag trivial, hvalid, hsize, hsample.accepted,
    hsample.longer [0] (List.cons_ne_nil 0 []), hshort,
    (hform.starved _ 8 0 hshort).2 [5, 0, 0] (by decide), hvalue.accepted, hleft, hcounted [5],
    hstarved, (haffine.starved _ 8 0 hstarved).2 [5, 0, 0] (by decide), fun n hn => ?_,
    hconstant.accepted, fun n hn => ?_⟩
  · exact hvalue.shorter _ (List.take_prefix n _) (hfewer hn)
  · exact hconstant.shorter _ (List.take_prefix n _) (hfewer hn)

end AffineForms
