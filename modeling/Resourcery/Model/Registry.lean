import Resourcery.Model.Lifecycle

/-!
# `Registry` and `Domain::try_acquire` (`domain.rs`)

The lock order is always the shard of the map first, then the state of the slot.
-/

namespace Resourcery

variable {R K E α : Type}

/-! ## `try_acquire` -/

namespace Domain

/-- The points of `Domain::try_acquire`, one for each of its four loads. -/
inductive TryAcquirePc
  | accepting | active | acceptingAgain | activeAgain
deriving DecidableEq

/-- `Domain::try_acquire`. -/
def tryAcquire (g : GenId) (goto : TryAcquirePc → α) (ret : Bool → α) :
    TryAcquirePc → Instr R K E α
  | .accepting => .isAccepting fun b => if b then goto .active else ret false
  | .active => .loadControl g fun ph => if ph = .active then goto .acceptingAgain else ret false
  | .acceptingAgain => .isAccepting fun b => if b then goto .activeAgain else ret false
  | .activeAgain => .loadControl g fun ph => ret (ph = .active)

end Domain

namespace Registry

/-! ## `claim_inner` -/

/-- `RegistryClaim`; a listener is the number of notifications before it was created. -/
inductive RegistryClaim
  | active (g : GenId)
  | owner (n generation : ℕ)
  | wait (n seen : ℕ)
  | occupied
  | shuttingDown
deriving DecidableEq

/-- The points of `Registry::claim_inner`. In the branch of an active slot they carry the slot
`n`, its generation number and its entry `g`. -/
inductive ClaimPc
  | entry
  | lockSlot (n : ℕ)
  | listen (n : ℕ)
  | upgrade (n generation : ℕ) (g : GenId)
  | tryAcquire (n generation : ℕ) (g : GenId) (p : Domain.TryAcquirePc)
  | dropResource (n generation : ℕ) (g : GenId)
  | recheck (n generation : ℕ) (g : GenId)
  | takeover (n generation : ℕ) (g : GenId)
  | vacant
  | insert
  | dropState (n : ℕ) (claim : RegistryClaim)
  | dropEntry (claim : RegistryClaim)
  | dropFound (g : GenId)
deriving DecidableEq

/-- `Registry::claim_inner`. A temporary `resource` is dropped while both locks are held when
`try_acquire` refuses it, and after both have been released when `create_only` is set. -/
def claimInner (i : Ident R K) (createOnly : Bool) (goto : ClaimPc → α) (destructor : GenId → α)
    (panic : α) (ret : RegistryClaim → α) : ClaimPc → Instr R K E α
  | .entry => .lockShard i panic fun
    | some n => goto (.lockSlot n)
    | none => goto .vacant
  | .lockSlot n => .lockSlot i n fun
    | .starting _ => goto (.listen n)
    | .active generation g => goto (.upgrade n generation g)
  | .listen n => .listen i n fun seen => goto (.dropState n (.wait n seen))
  | .upgrade n generation g => .upgrade g fun b =>
    if b then goto (.tryAcquire n generation g .accepting) else goto (.recheck n generation g)
  | .tryAcquire n generation g p =>
    Domain.tryAcquire g (fun p => goto (.tryAcquire n generation g p)) (fun b =>
      if b then goto (.dropState n (.active g)) else goto (.dropResource n generation g)) p
  | .dropResource n generation g =>
    .dropStrong g (destructor g) (goto (.recheck n generation g))
  | .recheck n generation g => .isAccepting fun b =>
    if b then goto (.takeover n generation g) else goto (.dropState n .shuttingDown)
  | .takeover n generation _ =>
    .storeState i n (.starting (generation + 1)) (goto (.dropState n (.owner n (generation + 1))))
  | .vacant => .isAccepting fun b => if b then goto .insert else goto (.dropEntry .shuttingDown)
  | .insert => .insertSlot i fun n => goto (.dropEntry (.owner n 1))
  | .dropState n claim => .unlockSlot i n (goto (.dropEntry claim))
  | .dropEntry claim => .unlockShard i
    (match claim, createOnly with
    | .active g, true => goto (.dropFound g)
    | claim, _ => ret claim)
  | .dropFound g => .dropStrong g (destructor g) (ret .occupied)

/-! ## `remove_if_same` -/

/-- The points of `Registry::remove_if_same`. -/
inductive RemovePc
  | entry
  | hasGeneration
  | dropState (same : Bool)
  | remove
  | dropEntry
deriving DecidableEq

/-- `Registry::remove_if_same` for the slot `n` of `i` and a generation number. -/
def removeIfSame (i : Ident R K) (n generation : ℕ) (goto : RemovePc → α) (panic ret : α) :
    RemovePc → Instr R K E α
  | .entry => .lockShard i panic fun present =>
    if present = some n then goto .hasGeneration else goto .dropEntry
  | .hasGeneration => .lockSlot i n fun st => goto (.dropState (st.generation = generation))
  | .dropState same => .unlockSlot i n (if same then goto .remove else goto .dropEntry)
  | .remove => .removeEntry i (goto .dropEntry)
  | .dropEntry => .unlockShard i ret

end Registry

end Resourcery
