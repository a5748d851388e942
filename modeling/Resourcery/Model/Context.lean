import Resourcery.Model.Reference

/-!
# `ResourceContext` (`context.rs`)

Discovery (`get`, `status`, `all`), acquisition (`spawn`, `get_or_spawn`, `try_get_or_spawn` with
the construction guard and `create`), and the supervising future that `create` spawns.
-/

namespace Resourcery

variable {R K E α : Type}

open Domain (TryAcquirePc RegisterPc FinishedPc)
open Registry (RegistryClaim ClaimPc RemovePc)

/-! ## Results -/

inductive AcquireError
  | occupied | shuttingDown | constructionPanicked
deriving DecidableEq

/-- How an acquisition ended: with a result, by its future being dropped, or by a panic: of a key
operation, or of the drop of a build's payload. -/
inductive Acquired
  | ok (g : GenId)
  | err (e : AcquireError)
  | dropped
  | panicked
deriving DecidableEq

/-- `ResourceStatus`, with the lease of an active generation. -/
inductive ResourceStatus
  | absent
  | starting
  | active (g : GenId)
deriving DecidableEq

/-- What `get` makes of the registry state that `status` reports. -/
def ResourceStatus.toGet : ResourceStatus → Option GenId
  | .active g => some g
  | _ => none

namespace ResourceContext

/-! ## `get` and `status` -/

/-- The points of `ResourceContext::get` and `ResourceContext::status`, which take the same
steps. -/
inductive StatusPc
  | slot
  | lockSlot (n : ℕ)
  | upgrade (n : ℕ) (g : GenId)
  | tryAcquire (n : ℕ) (g : GenId) (p : TryAcquirePc)
  | dropEntry (n : ℕ) (g : GenId)
  | dropState (n : ℕ) (status : ResourceStatus)
  | deliver (g : GenId)
  | returned (status : ResourceStatus)
  | panicked
deriving DecidableEq

/-- `ResourceContext::get` and `ResourceContext::status`. An entry that `try_acquire` refuses is
dropped before the guard of the slot state. -/
def status (i : Ident R K) (goto : StatusPc → α) (destructor : GenId → α) :
    StatusPc → Instr R K E α
  | .slot => .slot i (goto .panicked) fun
    | some n => goto (.lockSlot n)
    | none => goto (.returned .absent)
  | .lockSlot n => .lockSlot i n fun
    | .starting _ => goto (.dropState n .starting)
    | .active _ g => goto (.upgrade n g)
  | .upgrade n g => .upgrade g fun b =>
    if b then goto (.tryAcquire n g .accepting) else goto (.dropState n .absent)
  | .tryAcquire n g p => Domain.tryAcquire g (fun p => goto (.tryAcquire n g p))
    (fun b => if b then goto (.dropState n (.active g)) else goto (.dropEntry n g)) p
  | .dropEntry n g => .dropStrong g (destructor g) (goto (.dropState n .absent))
  | .dropState n st => .unlockSlot i n (match st with
    | .active g => goto (.deliver g)
    | st => goto (.returned st))
  | .deliver g => .deliver [g] (goto (.returned (.active g)))
  | .returned _ => .halt
  | .panicked => .halt

/-! ## `all` -/

/-- The points of `ResourceContext::all`. `collect` is the iteration of `live_snapshot` over the
live index, which held the ids `keys` when it began; then come the upgrades, with `todo` what is
left of the snapshot and `found` the references acquired so far. -/
inductive AllPc
  | iter
  | collect (keys : List ℕ) (snapshot : List (ℕ × GenId))
  | filter (todo found : List GenId)
  | tryAcquire (g : GenId) (todo found : List GenId) (p : TryAcquirePc)
  | dropEntry (g : GenId) (todo found : List GenId)
  | returned (found : List GenId)
deriving DecidableEq

/-- `ResourceContext::all`. -/
def all (r : R) (goto : AllPc → α) (destructor : GenId → α) : AllPc → Instr R K E α
  | .iter => .iterLive r fun keys => goto (.collect keys [])
  | .collect keys snapshot => .nextLive r keys snapshot
    (fun e => goto (.collect keys (snapshot ++ [e]))) (goto (.filter (snapshot.map Prod.snd) []))
  | .filter [] found => .deliver found (goto (.returned found))
  | .filter (g :: todo) found => .upgrade g fun b =>
    if b then goto (.tryAcquire g todo found .accepting) else goto (.filter todo found)
  | .tryAcquire g todo found p => Domain.tryAcquire g (fun p => goto (.tryAcquire g todo found p))
    (fun b => if b then goto (.filter todo (found ++ [g])) else goto (.dropEntry g todo found)) p
  | .dropEntry g todo found => .dropStrong g (destructor g) (goto (.filter todo found))
  | .returned _ => .halt

/-! ## `create` -/

/-- The points of `ResourceContext::create`; `build` is its suspension point. The last six are
the branch in which `register` returns `None`, with its locals dropped in reverse order. -/
inductive CreatePc
  | accepting
  | build
  | newEntry
  | spawnTask (g : GenId)
  | register (g : GenId) (p : RegisterPc)
  | insertLive (g : GenId) (id : ℕ)
  | spawnSupervisor (g : GenId) (id : ℕ)
  | abort (g : GenId)
  | cancel (g : GenId) (p : Control.CancelPc)
  | dropStart (g : GenId)
  | dropEntry (g : GenId)
  | dropSender (g : GenId)
deriving DecidableEq

/-- `ResourceContext::create`: `site` is what the `on_finish` closure has captured, `supervise`
the supervising future, and `fail` is where it ends without a resource. -/
def create (i : Ident R K) (site : Option Site) (goto : CreatePc → α) (destructor : GenId → α)
    (supervise : GenId → ℕ → α) (fail : Acquired → α) (ret : GenId → α) :
    CreatePc → Instr R K E α
  | .accepting => .isAccepting fun b => if b then goto .build else fail (.err .shuttingDown)
  | .build => .build (fail (.err .constructionPanicked)) (fail .panicked) (goto .newEntry)
  | .newEntry => .newEntry i site fun g => goto (.spawnTask g)
  | .spawnTask g => .spawnTask g (goto (.register g .accepting))
  | .register g p => Domain.register g (fun p => goto (.register g p)) (fun
    | some id => goto (.insertLive g id)
    | none => goto (.abort g)) p
  | .insertLive g id => .insertLive i.ty id g (goto (.spawnSupervisor g id))
  | .spawnSupervisor g id => .spawn (supervise g id) (ret g)
  | .abort g => .abort g (goto (.cancel g .load))
  | .cancel g p => Control.cancel g (fun p => goto (.cancel g p)) (goto (.dropStart g)) p
  | .dropStart g => .dropStart g (goto (.dropEntry g))
  | .dropEntry g => .dropStrong g (destructor g) (goto (.dropSender g))
  | .dropSender g => .dropSender g (fail (.err .shuttingDown))

/-! ## Acquisition -/

/-- The operations that acquire. -/
inductive AcquireOp
  | spawn | getOrSpawn | tryGetOrSpawn
deriving DecidableEq

/-- A call of one of them; the key of the identity is the `placement_key` of its input. -/
structure Request (R K : Type) where
  op : AcquireOp
  ident : Ident R K
deriving DecidableEq

/-- The points of `finish_canonical_creation` after `create` has returned a resource. -/
inductive SettlePc
  | accepting
  | lockState
  | storeActive
  | dropState
  | notify
  | start
  | lateStart
  | dropResource
deriving DecidableEq

/-- The points of the drop of an armed `CanonicalConstructionGuard`. -/
inductive GuardPc
  | remove (p : RemovePc)
  | notify
deriving DecidableEq

/-- The points of an acquisition. `listener` and the `build` of `create` are its suspension
points; from `cloneCleanupKey` on the construction guard is armed. -/
inductive AcquirePc
  | accepting
  | claim (p : ClaimPc)
  | listener (n seen : ℕ)
  | cloneKey (n generation : ℕ)
  | cloneCleanupKey (n generation : ℕ)
  | create (site : Option Site) (p : CreatePc)
  | settle (n generation : ℕ) (g : GenId) (p : SettlePc)
  | guard (n generation : ℕ) (result : Acquired) (p : GuardPc)
  | start (g : GenId)
  | deliver (g : GenId)
  | returned (result : Acquired)
deriving DecidableEq

/-- What an acquisition does with the claim it gets. -/
def onClaim (op : AcquireOp) (goto : AcquirePc → α) : RegistryClaim → α
  | .active g => goto (.deliver g)
  | .owner n generation => goto (.cloneKey n generation)
  | .wait n seen =>
    if op = .getOrSpawn then goto (.listener n seen) else goto (.returned (.err .occupied))
  | .occupied =>
    -- `unreachable!` in `acquire_canonical`, whose claims are not create-only
    if op = .getOrSpawn then goto (.returned .panicked) else goto (.returned (.err .occupied))
  | .shuttingDown => goto (.returned (.err .shuttingDown))

/-- The rest of `finish_canonical_creation` once `create` has returned the resource `g`. -/
def settle (i : Ident R K) (n generation : ℕ) (g : GenId) (goto : AcquirePc → α)
    (destructor : GenId → α) : SettlePc → Instr R K E α
  | .accepting => .isAccepting fun b =>
    if b then goto (.settle n generation g .lockState) else goto (.settle n generation g .lateStart)
  | .lockState => .lockSlot i n fun _ => goto (.settle n generation g .storeActive)
  | .storeActive =>
    .storeState i n (.active generation g) (goto (.settle n generation g .dropState))
  | .dropState => .unlockSlot i n (goto (.settle n generation g .notify))
  | .notify => .notify i n (goto (.settle n generation g .start))
  | .start => .sendStart g (goto (.deliver g))
  | .lateStart => .sendStart g (goto (.settle n generation g .dropResource))
  | .dropResource => .dropStrong g (destructor g)
    (goto (.guard n generation (.err .shuttingDown) (.remove .entry)))

/-- The drop of an armed `CanonicalConstructionGuard`, on the way to `result`. -/
def dropGuard (i : Ident R K) (n generation : ℕ) (result : Acquired) (goto : AcquirePc → α) :
    GuardPc → Instr R K E α
  | .remove p => Registry.removeIfSame i n generation
    (fun p => goto (.guard n generation result (.remove p))) (goto (.returned .panicked))
    (goto (.guard n generation result .notify)) p
  | .notify => .notify i n (goto (.returned result))

/-- `acquire_canonical`, `try_acquire_canonical` (with `spawn_canonical`) and
`create_and_start`. -/
def acquire (q : Request R K) (goto : AcquirePc → α) (destructor : GenId → α)
    (supervise : Option Site → GenId → ℕ → α) : AcquirePc → Instr R K E α
  | .accepting => .isAccepting fun b =>
    if b then goto (.claim .entry) else goto (.returned (.err .shuttingDown))
  | .claim p => Registry.claimInner q.ident (q.op = .spawn) (fun p => goto (.claim p)) destructor
    (goto (.returned .panicked)) (onClaim q.op goto) p
  | .listener n seen => .awaitListener q.ident n seen (goto (.claim .entry))
  | .cloneKey n generation =>
    .cloneKey (goto (.returned .panicked)) (goto (.cloneCleanupKey n generation))
  | .cloneCleanupKey n generation =>
    .cloneKey (goto (.guard n generation .panicked (.remove .entry)))
      (goto (.create (some ⟨n, generation⟩) .accepting))
  | .create site p => create q.ident site (fun p => goto (.create site p)) destructor
    (supervise site)
    (fun result => match site with
      | some ⟨n, generation⟩ => goto (.guard n generation result (.remove .entry))
      | none => goto (.returned result))
    (fun g => match site with
      | some ⟨n, generation⟩ => goto (.settle n generation g .accepting)
      | none => goto (.start g)) p
  | .settle n generation g p => settle q.ident n generation g goto destructor p
  | .guard n generation result p => dropGuard q.ident n generation result goto p
  | .start g => .sendStart g (goto (.deliver g))
  | .deliver g => .deliver [g] (goto (.returned (.ok g)))
  | .returned _ => .halt

/-! ## The supervising future -/

/-- How a supervising future came to its end. -/
inductive Exit
  | ran | unwound | dropped
deriving DecidableEq

/-- The points of the supervising future. `join` awaits the task and is its suspension point;
`cleanup` runs the `on_finish` of a canonical generation, `finalize` is the drop of
`TaskFinalizer`, `dropSender` that of the captured `finished_tx`. -/
inductive SupervisePc (E : Type)
  | unpolled
  | join
  | finish (result : JoinResult E)
  | cleanup (site : Site) (outcome : ResourceOutcome E) (p : RemovePc)
  | publish (outcome : ResourceOutcome E) (cleanupPanicked : Bool)
  | removeLive
  | finalize (exit : Exit) (p : FinishedPc)
  | dropSender (exit : Exit)
  | ended (exit : Exit)
deriving DecidableEq

/-- The supervising future of `g`. -/
def supervise (i : Ident R K) (g : GenId) (id : ℕ) (site : Option Site)
    (goto : SupervisePc E → α) : SupervisePc E → Instr R K E α
  | .unpolled => .skip (goto .join)
  | .join => .join g fun result => goto (.finish result)
  | .finish result => .storeFinished g (match site with
    | some site => goto (.cleanup site result.outcome .entry)
    | none => goto (.publish result.outcome false))
  | .cleanup site outcome p => Registry.removeIfSame i site.slot site.generation
    (fun p => goto (.cleanup site outcome p)) (goto (.publish outcome true))
    (goto (.publish outcome false)) p
  | .publish outcome _ => .send g outcome (goto .removeLive)
  | .removeLive => .removeLive i.ty id (goto (.finalize .ran .lock))
  | .finalize exit p =>
    Domain.taskFinished id (fun p => goto (.finalize exit p)) (goto (.dropSender exit)) p
  | .dropSender exit => .dropSender g (goto (.ended exit))
  | .ended _ => .halt

end ResourceContext

end Resourcery
