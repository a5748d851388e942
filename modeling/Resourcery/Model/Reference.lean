import Resourcery.Model.Domain

/-!
# References (`reference.rs`)

The destructor of an `Entry`, upgrading a weak reference, and waiting for an outcome. Cloning a
reference and dropping one that is not the last are single steps of the environment.
-/

namespace Resourcery

variable {R K E α : Type}

namespace Entry

/-- The points of the destruction of an `Entry` whose last strong reference is gone: its `Drop`,
then the drop of its fields. -/
inductive DropPc
  | cancel (p : Control.CancelPc)
  | fields
  | finished
deriving DecidableEq

/-- `Entry::drop` and the drop of the entry's outcome receiver. The interface goes with its entry:
what it holds can be released from then on (`Memory.Alive`). Its own destructor makes no step here.
A call it makes into the crate, or a reference it releases, is that of another thread, which nobody
waits for; so an interface whose destructor blocks on the thread it runs on is outside the model. -/
def drop (g : GenId) (goto : DropPc → α) : DropPc → Instr R K E α
  | .cancel p => Control.cancel g (fun p => goto (.cancel p)) (goto .fields) p
  | .fields => .dropReceiver g (goto .finished)
  | .finished => .halt

end Entry

namespace WeakResourceRef

/-- The points of `WeakResourceRef::upgrade`. -/
inductive UpgradePc
  | entry
  | domain
  | tryAcquire (p : Domain.TryAcquirePc)
  | dropEntry
  | deliver
  | returned (result : Option GenId)
deriving DecidableEq

/-- `WeakResourceRef::upgrade`. -/
def upgrade (g : GenId) (goto : UpgradePc → α) (destructor : GenId → α) :
    UpgradePc → Instr R K E α
  | .entry => .upgrade g fun b => if b then goto .domain else goto (.returned none)
  | .domain => .domainUpgrade fun b =>
    if b then goto (.tryAcquire .accepting) else goto .dropEntry
  | .tryAcquire p => Domain.tryAcquire g (fun p => goto (.tryAcquire p))
    (fun b => if b then goto .deliver else goto .dropEntry) p
  | .dropEntry => .dropStrong g (destructor g) (goto (.returned none))
  | .deliver => .deliver [g] (goto (.returned (some g)))
  | .returned _ => .halt

end WeakResourceRef

namespace ResourceCompletion

/-- The points of `ResourceCompletion::wait`; `changed` is its suspension point, and `seen` the
version the receiver has seen. -/
inductive WaitPc (E : Type)
  | borrow (seen : ℕ)
  | changed (seen : ℕ)
  | dropReceiver (result : Option (ResourceOutcome E))
  | returned (outcome : ResourceOutcome E)
  | dropped
deriving DecidableEq

/-- `ResourceCompletion::wait`. `borrow` does not mark the value as seen. -/
def wait (g : GenId) (goto : WaitPc E → α) : WaitPc E → Instr R K E α
  | .borrow seen => .borrow g fun
    | some outcome => goto (.dropReceiver (some outcome))
    | none => goto (.changed seen)
  | .changed seen => .hasChanged g seen (fun version => goto (.borrow version))
    (goto (.dropReceiver (some .aborted)))
  | .dropReceiver result => .dropReceiver g (match result with
    | some outcome => goto (.returned outcome)
    | none => goto .dropped)
  | .returned _ => .halt
  | .dropped => .halt

end ResourceCompletion

end Resourcery
