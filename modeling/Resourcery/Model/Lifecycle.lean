import Resourcery.Model.Instr

/-!
# `Control` (`lifecycle.rs`)

A function of the source that takes several steps is a table of its program points: `goto` turns a
point of the function into one of its caller, `ret` is where the caller goes on when the function
returns. `activate`, `is_active` and `finish` are single instructions (`exchangeActive`,
`loadControl`, `storeFinished`).
-/

namespace Resourcery

variable {R K E α : Type}

namespace Control

/-- The points of `Control::cancel`. -/
inductive CancelPc
  | load
  | exchange (current : CancellablePhase)
  | token
deriving DecidableEq

/-- The head of the loop of `Control::cancel`, with the phase last observed. -/
def cancelFrom (goto : CancelPc → α) (ret : α) (current : Phase) : α :=
  if h : current.Cancellable then goto (.exchange ⟨current, h⟩) else ret

/-- `Control::cancel`. -/
def cancel (g : GenId) (goto : CancelPc → α) (ret : α) : CancelPc → Instr R K E α
  | .load => .loadControl g (cancelFrom goto ret)
  | .exchange current => .exchangeCancelling g current fun
    | none => goto .token
    | some observed => cancelFrom goto ret observed
  | .token => .cancelToken g ret

end Control

end Resourcery
