import AffineForms.Codec.Writer

/-!
# Codec layout — what the bytes of a form are

Writing a form to a consumer that appends something for each event collects these pieces in the
order of `Form.events` (`run_write_append`).  For bytes this gives the layout of an encoding:

* `Form.encode_eq`: the constant, the number of terms, then `Codec.termBytes` of each term;
* `Form.encode_inj`: all terms take equally many bytes (`flatMap_inj_of_length`), so an encoding
  determines the form, whether or not it is valid.
-/

namespace AffineForms

/-! ## Writing collects the events -/

namespace Form

variable {M : Modulus} {α : Type}

/-- A consumer that appends the items of each event to those collected so far. -/
def collect (items : Event M → List α) (e : Event M) : StateM (List α) Unit :=
  modify fun written => written ++ items e

theorem run_forM_collect (items : Event M → List α) (entries : List (Var × Residue M))
    (written : List α) :
    ((entries.forM fun e => do
        collect items (.var e.1)
        collect items (.element e.2)).run written).2 =
      written ++ entries.flatMap fun e => items (.var e.1) ++ items (.element e.2) := by
  induction entries generalizing written with
  | nil => exact (List.append_nil written).symm
  | cons e rest ih =>
      have hnext := ih (written ++ items (.var e.1) ++ items (.element e.2))
      simpa [List.forM_cons, collect] using hnext

theorem run_write_append (items : Event M → List α) (p : Form M) (written : List α) :
    ((p.write (collect items)).run written).2 = written ++ p.events.flatMap items := by
  have hterms := run_forM_collect items p.terms.entries
    (written ++ items (.element p.constant) ++ items (.count p.size))
  simpa [write, collect, events, List.flatMap_assoc] using hterms

end Form

/-! ## Pieces of fixed width -/

/-- Pieces of one positive width, written one after the other, can be told apart. -/
theorem flatMap_inj_of_length {α β : Type} {f : α → List β} {width : Nat} (hwidth : 0 < width)
    (hlen : ∀ a, (f a).length = width) {k l : List α}
    (hf : ∀ a ∈ k, ∀ b ∈ l, f a = f b → a = b) (h : k.flatMap f = l.flatMap f) : k = l := by
  induction k generalizing l with
  | nil =>
      cases l with
      | nil => rfl
      | cons b l =>
          have hzero := congrArg List.length h
          simp [hlen] at hzero
          omega
  | cons a k ih =>
      cases l with
      | nil =>
          have hzero := congrArg List.length h
          simp [hlen] at hzero
          omega
      | cons b l =>
          simp only [List.flatMap_cons] at h
          -- The first pieces are equally wide, so they are equal and so are the rests.
          rcases List.append_inj h (by rw [hlen, hlen]) with ⟨hhead, hrest⟩
          have hab : a = b := hf a List.mem_cons_self b List.mem_cons_self hhead
          have hkl : k = l :=
            ih (fun c hc d hd => hf c (List.mem_cons_of_mem a hc) d (List.mem_cons_of_mem b hd))
              hrest
          rw [hab, hkl]

namespace Codec

variable {M : Modulus}

def termBytes (e : Var × Residue M) : List UInt8 := e.1.encode ++ e.2.encode

@[simp] theorem length_termBytes (e : Var × Residue M) :
    (termBytes e).length = 8 + M.width.bytes := by
  simp [termBytes, Var.encode]

theorem termBytes_inj {d e : Var × Residue M} (h : termBytes d = termBytes e) : d = e := by
  rcases List.append_inj h (by simp [Var.encode]) with ⟨hvar, hcoefficient⟩
  exact Prod.ext (Var.encode_inj hvar) (Residue.encode_inj.1 hcoefficient)

end Codec

/-! ## Forms -/

namespace Form

variable {M : Modulus}

theorem encode_eq (p : Form M) :
    p.encode =
      p.constant.encode ++ Bytes.ofNat 8 p.size ++ p.terms.entries.flatMap Codec.termBytes := by
  calc
    p.encode
        = p.events.flatMap Event.bytes := run_write_append Event.bytes p []
    _ = p.constant.encode ++ Bytes.ofNat 8 p.size
          ++ p.terms.entries.flatMap Codec.termBytes := by
        simp only [events, List.flatMap_cons, List.flatMap_assoc, List.flatMap_nil, Event.bytes,
          List.append_nil, List.append_assoc]
        rfl

theorem encode_inj {p q : Form M} (h : p.encode = q.encode) : p = q := by
  rw [encode_eq, encode_eq] at h
  -- The header has a fixed width; the count in it is not needed to tell the terms apart.
  rcases List.append_inj h (by simp) with ⟨hhead, hterms⟩
  rcases List.append_inj hhead (by simp) with ⟨hconstant, _⟩
  have hentries := flatMap_inj_of_length (by omega) Codec.length_termBytes
    (fun _ _ _ _ => Codec.termBytes_inj) hterms
  exact ext (Residue.encode_inj.1 hconstant) hentries

end Form

end AffineForms
