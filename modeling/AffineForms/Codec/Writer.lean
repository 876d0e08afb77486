import AffineForms.Form.Basic
import AffineForms.Residue.Encoding

/-!
# Codec writer — a form as a stream of events

`Form.write` hands the parts of a form, one event at a time, to a consumer of the caller's choice:
the constant, the number of terms, then each variable with its coefficient in ascending order.
`Form.events` lists the same events.  Three consumers are provided:

* `Event.appendBytes` collects bytes, which gives the layout
  `constant ‖ count ‖ (variable ‖ coefficient)*` of `Form.encode`;
* `Event.appendElement` collects field elements, for `Form.elements`;
* `Event.log` collects the events themselves, and fails once a limit is reached.

An encoded value (`Affine.encode`) starts with a byte that tells constants and forms apart.
-/

namespace AffineForms

inductive Event (M : Modulus) where
  | element (x : Residue M)
  | count (n : Nat)
  | var (v : Var)
  deriving DecidableEq, Repr

namespace Event

variable {M : Modulus}

def bytes : Event M → List UInt8
  | element x => x.encode
  | count n => Bytes.ofNat 8 n
  | var v => v.encode

/-- The field element that stands for an event: numbers are reduced into the field. -/
def toResidue : Event M → Residue M
  | element x => x
  | count n => Residue.ofNat n
  | var v => Residue.ofNat v.index

/-! ## Consumers -/

def appendBytes (e : Event M) : StateM (List UInt8) Unit :=
  modify fun written => written ++ e.bytes

def appendElement (e : Event M) : StateM (List (Residue M)) Unit :=
  modify fun written => written ++ [e.toResidue]

/-- Logs an event, unless as many events as the limit allows are logged already. -/
def log {ε : Type} (limit : Option Nat) (failure : ε) (e : Event M) :
    ExceptT ε (StateM (List (Event M))) Unit := do
  let logged ← get
  if limit.any (· ≤ logged.length) then
    throw failure
  else
    set (logged ++ [e])

end Event

namespace Form

variable {M : Modulus}

/-- The events of a form, in the order in which they are written. -/
def events (p : Form M) : List (Event M) :=
  .element p.constant :: .count p.size ::
    p.terms.entries.flatMap fun e => [.var e.1, .element e.2]

def write {m : Type → Type} [Monad m] (emit : Event M → m Unit) (p : Form M) : m Unit := do
  emit (.element p.constant)
  emit (.count p.size)
  p.terms.entries.forM fun e => do
    emit (.var e.1)
    emit (.element e.2)

def encode (p : Form M) : List UInt8 := ((p.write Event.appendBytes).run []).2

def elements (p : Form M) : List (Residue M) := ((p.write Event.appendElement).run []).2

/-- The outcome of writing to a log that holds at most `limit` events, and the log itself. -/
def writeLog {ε : Type} (p : Form M) (limit : Option Nat) (failure : ε) :
    Except ε Unit × List (Event M) :=
  ((p.write (Event.log limit failure)).run).run []

end Form

namespace Affine

variable {M : Modulus}

def constantTag : UInt8 := 0

def formTag : UInt8 := 1

def encode : Affine M → List UInt8
  | constant c => constantTag :: c.encode
  | form p => formTag :: p.encode

end Affine

end AffineForms
