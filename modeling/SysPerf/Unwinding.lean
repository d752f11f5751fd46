import Mathlib.Order.Basic

namespace SysPerf.Unwinding

/-- How a statement ends: behind itself, with an exception on its way to a handler, or with the
whole process. -/
inductive Outcome (σ ε : Type)
  | done (s : σ)
  | throws (e : ε) (s : σ)
  | terminated

variable {σ ε : Type}

/-- A statement and the next one. -/
def Outcome.andThen : Outcome σ ε → (σ → Outcome σ ε) → Outcome σ ε
  | .done s, next => next s
  | .throws e s, _ => .throws e s
  | .terminated, _ => .terminated

/-- A destructor of type noexcept: no exception leaves it. -/
def Outcome.noexcept : Outcome σ ε → Outcome σ ε
  | .done s => .done s
  | .throws _ _ => .terminated
  | .terminated => .terminated

/-- What comes of an exception when the destructors that it passes have run. -/
def Outcome.rethrow (e : ε) : Outcome σ ε → Outcome σ ε
  | .done s => .throws e s
  | r => r

/-- A block with an object in it. The object is destroyed when the block is left, by an exception
too, unless its constructor has thrown. -/
def withObject (ctor body dtor : σ → Outcome σ ε) (s : σ) : Outcome σ ε :=
  (ctor s).andThen fun s =>
    match body s with
    | .done s => (dtor s).noexcept
    | .throws e s => (dtor s).noexcept.rethrow e
    | .terminated => .terminated

/-- A body that ends with an exception, in a state in which the destructor throws. -/
theorem withObject_terminated {ctor body dtor : σ → Outcome σ ε} {s t u v : σ} {e f : ε}
    (hctor : ctor s = .done t) (hbody : body t = .throws e u) (hdtor : dtor u = .throws f v) :
    withObject ctor body dtor s = .terminated := by
  unfold withObject
  rw [hctor]
  simp only [Outcome.andThen]
  rw [hbody]
  simp only
  rw [hdtor]
  rfl

theorem withObject_of_body {ctor body dtor : σ → Outcome σ ε} {s t u : σ} (hctor : ctor s = .done t)
    (hbody : body t = .done u) : withObject ctor body dtor s = (dtor u).noexcept := by
  unfold withObject
  rw [hctor]
  simp only [Outcome.andThen]
  rw [hbody]

/-- The object whose constructor throws is not destroyed. -/
theorem withObject_of_ctor {ctor body dtor : σ → Outcome σ ε} {s t : σ} {e : ε}
    (hctor : ctor s = .throws e t) : withObject ctor body dtor s = .throws e t := by
  unfold withObject
  rw [hctor]
  rfl

/-- What a `catch` behind a block gets. -/
inductive Caught (σ ε : Type)
  | nothing (s : σ)
  | exception (e : ε) (s : σ)

/-- A `try` block with a handler for every exception in it; `none` if the process has ended. -/
def tryCatch : Outcome σ ε → Option (Caught σ ε)
  | .done s => some (.nothing s)
  | .throws e s => some (.exception e s)
  | .terminated => none

end SysPerf.Unwinding
