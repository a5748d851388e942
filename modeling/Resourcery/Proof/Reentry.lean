import Resourcery.Logic.Threads
import Resourcery.Proof.Locks
import Resourcery.Proof.Leases

/-!
# Destructors and locks

The last strong reference to an entry may be the temporary of a `get`, a `status` or a claim that
`try_acquire` has refused: it is dropped while the state of the slot is locked, and the destructor
runs under that lock. Every other reference is dropped by a thread that holds no lock of a registry.
-/

namespace Resourcery

open Interleaving Function Transition ResourceContext

variable {R K E : Type}

/-! ## No other locks -/

/-- Thread `u` holds no lock of a registry but those of its point. -/
def Honest (cfg : Config R K) (m : Memory R K E) (u : Tid) (p : Pc R K E) : Prop :=
  (∀ i n, m.slotLock i n = some u → p.slot? = some (i, n)) ∧
    ∀ r k, m.shard r k = some u → ∃ i, p.shard? = some i ∧ i.ty = r ∧ cfg.shardOf i = k

variable {cfg : Config R K} {t u : Tid} {m m' : Memory R K E} {p : Pc R K E} {g : GenId}

/-- Thread `u` has locked nothing. -/
def Unlocking (u : Tid) (m m' : Memory R K E) : Prop :=
  (∀ i n, m'.slotLock i n = some u → m.slotLock i n = some u) ∧
    ∀ r k, m'.shard r k = some u → m.shard r k = some u

theorem Unlocking.refl (u : Tid) (m : Memory R K E) : Unlocking u m m :=
  ⟨fun _ _ => id, fun _ _ => id⟩

theorem Honest.unlocking (h : Honest cfg m u p) (hl : Unlocking u m m') : Honest cfg m' u p :=
  ⟨fun i n hn => h.1 i n (hl.1 i n hn), fun r k hk => h.2 r k (hl.2 r k hk)⟩

/-- A thread that holds no lock is honest wherever it goes. -/
theorem Honest.of_free (h : Honest cfg m u p) (h1 : p.slot? = none) (h2 : p.shard? = none)
    (p' : Pc R K E) : Honest cfg m u p' := by
  refine ⟨fun i n hn => ?_, fun r k hk => ?_⟩
  · exact nomatch h1.symm.trans (h.1 i n hn)
  · obtain ⟨i, hi, -⟩ := h.2 r k hk
    exact nomatch h2.symm.trans hi

section

variable [DecidableEq R] [DecidableEq K]

theorem Honest.lockSlot {i : Ident R K} {n : ℕ} {p' : Pc R K E} (h : Honest cfg m u p)
    (h0 : p.slot? = none) (h1 : p'.slot? = some (i, n)) (h2 : p'.shard? = p.shard?) :
    Honest cfg { m with slotLock := update₂ m.slotLock i n (some u) } u p' := by
  refine ⟨fun j k hk => ?_, fun r k hk => h2 ▸ h.2 r k hk⟩
  change update₂ m.slotLock i n (some u) j k = some u at hk
  rw [update₂_apply] at hk
  split_ifs at hk with he
  · rw [h1, he.1, he.2]
  · exact nomatch h0.symm.trans (h.1 j k hk)

theorem Honest.unlockSlot {i : Ident R K} {n : ℕ} {p' : Pc R K E} (h : Honest cfg m u p)
    (h1 : p.slot? = some (i, n)) (h2 : p'.shard? = p.shard?) :
    Honest cfg { m with slotLock := update₂ m.slotLock i n none } u p' := by
  refine ⟨fun j k hk => ?_, fun r k hk => h2 ▸ h.2 r k hk⟩
  change update₂ m.slotLock i n none j k = some u at hk
  rw [update₂_apply] at hk
  split_ifs at hk with he
  have := h1.symm.trans (h.1 j k hk)
  cases this
  exact absurd ⟨rfl, rfl⟩ he

omit [DecidableEq K] in
theorem Honest.lockShard {i : Ident R K} {p' : Pc R K E} (h : Honest cfg m u p)
    (h0 : p.shard? = none) (h1 : p'.shard? = some i) (h2 : p'.slot? = p.slot?) :
    Honest cfg { m with shard := update₂ m.shard i.ty (cfg.shardOf i) (some u) } u p' := by
  refine ⟨fun j k hk => h2 ▸ h.1 j k hk, fun r k hk => ?_⟩
  change update₂ m.shard i.ty (cfg.shardOf i) (some u) r k = some u at hk
  rw [update₂_apply] at hk
  split_ifs at hk with he
  · exact ⟨i, h1, he.1.symm, he.2.symm⟩
  · obtain ⟨j, hj, -⟩ := h.2 r k hk
    exact nomatch h0.symm.trans hj

omit [DecidableEq K] in
theorem Honest.unlockShard {i : Ident R K} {p' : Pc R K E} (h : Honest cfg m u p)
    (h1 : p.shard? = some i) (h2 : p'.slot? = p.slot?) :
    Honest cfg { m with shard := update₂ m.shard i.ty (cfg.shardOf i) none } u p' := by
  refine ⟨fun j k hk => h2 ▸ h.1 j k hk, fun r k hk => ?_⟩
  change update₂ m.shard i.ty (cfg.shardOf i) none r k = some u at hk
  rw [update₂_apply] at hk
  split_ifs at hk with he
  obtain ⟨j, hj, hr, hk⟩ := h.2 r k hk
  cases h1.symm.trans hj
  exact absurd ⟨hr.symm, hk.symm⟩ he

theorem honest_run (hp : Honest cfg m t p) :
    p.code.wp cfg t m fun m' p' _ => Honest cfg m' t p' := by
  cases p using Pc.points
  case acquire_claim_entry =>
    exact ⟨hp, fun _ => ⟨fun _ _ => hp.lockShard rfl rfl rfl, fun _ => hp.lockShard rfl rfl rfl⟩⟩
  case acquire_guard_remove_entry | supervise_cleanup_entry =>
    refine ⟨hp, fun _ => ⟨fun _ _ => ?_, fun _ => hp.lockShard rfl rfl rfl⟩⟩
    dsimp only
    split <;> exact hp.lockShard rfl rfl rfl
  case acquire_claim_lockSlot | discover_lockSlot | acquire_settle_lockState
      | acquire_guard_remove_hasGeneration | supervise_cleanup_hasGeneration =>
    exact fun _ => ⟨fun _ _ => hp.lockSlot rfl rfl rfl, fun _ _ _ => hp.lockSlot rfl rfl rfl⟩
  case acquire_claim_dropState | acquire_settle_dropState | discover_dropState_absent
      | discover_dropState_starting | discover_dropState_active
      | acquire_guard_remove_dropState_false | acquire_guard_remove_dropState_true
      | supervise_cleanup_dropState_false | supervise_cleanup_dropState_true =>
    exact hp.unlockSlot rfl rfl
  all_goals
    repeat' first
      | exact trivial
      | exact hp
      | exact hp.unlockShard rfl rfl
      | apply And.intro
      | intro _

theorem wp_unlocking {α : Type} {ins : Instr R K E α} (hu : u ≠ t) :
    ins.wp cfg t m fun m' _ _ => Unlocking u m m' := by
  have slot {i : Ident R K} {n : ℕ} {o : Option Tid} (ho : o ≠ some u) (j : Ident R K) (k : ℕ)
      (h : update₂ m.slotLock i n o j k = some u) : m.slotLock j k = some u := by
    rw [update₂_apply] at h
    split_ifs at h
    · exact absurd h ho
    · exact h
  have shard {r : R} {n : ℕ} {o : Option Tid} (ho : o ≠ some u) (j : R) (k : ℕ)
      (h : update₂ m.shard r n o j k = some u) : m.shard j k = some u := by
    rw [update₂_apply] at h
    split_ifs at h
    · exact absurd h ho
    · exact h
  have ht : some t ≠ some u := fun e => hu (Option.some.inj e).symm
  cases ins
  case lockShard => exact ⟨.refl _ _, fun _ => ⟨fun _ _ => ⟨fun _ _ => id, shard ht⟩,
    fun _ => ⟨fun _ _ => id, shard ht⟩⟩⟩
  case unlockShard => exact ⟨fun _ _ => id, shard nofun⟩
  case lockSlot => exact fun _ => ⟨fun _ _ => ⟨slot ht, fun _ _ => id⟩,
    fun _ _ _ => ⟨slot ht, fun _ _ => id⟩⟩
  case unlockSlot => exact ⟨slot nofun, fun _ _ => id⟩
  all_goals
    repeat' first
      | exact trivial
      | exact fun _ _ => id
      | apply And.intro
      | intro _

variable {s s' : State R K E} {a : Action R K E} {ok : State R K E → Action R K E → Prop}

theorem unlocking_step (h : step cfg s a = some s') (hu : a.actor ≠ some u) :
    Unlocking u s.mem s'.mem := by
  refine mem_step (Unlocking u s.mem) h (.refl _ _) ?_ ?_ (fun _ _ _ => .refl _ _) ?_
  · rintro t p hat rfl -
    exact wp_unlocking fun e => hu (e ▸ hat)
  · rintro c m p - hc
    cases hc <;> exact ⟨fun _ _ => id, fun _ _ => id⟩
  · rintro m c hh
    cases hh <;> exact ⟨fun _ _ => id, fun _ _ => id⟩

/-- **No thread holds a lock of a registry but those of its point**, in every run. -/
theorem honest_of_reach (hr : Reach (step cfg) ok State.new s) (u : Tid) :
    Honest cfg s.mem u (s.pc u) := by
  revert u
  refine hr.invariant_of_reach (fun s => ∀ u, Honest cfg s.mem u (s.pc u))
    (fun _ => ⟨fun _ _ => nofun, fun _ _ => nofun⟩) ?_
  intro s a s' hs ih _ h
  have hf := fresh_of_reach hs
  -- a thread that is being started holds nothing
  have new (p : Pc R K E) : Honest cfg s.mem s.size p := by
    have hi := ih s.size
    rw [hf s.size (Nat.le_refl _)] at hi
    exact hi.of_free rfl rfl p
  refine forall_pc_step (fun m u p => Honest cfg m u p) h ih
    (fun u hu => (ih u).unlocking (unlocking_step h hu)) ?_ ?_ ?_ ?_
  · rintro t p - rfl hr hp
    refine ((honest_run hp).and (wp_unlocking (Nat.ne_of_lt hr.1).symm)).mono ?_
    rintro m p' c ⟨hp', hl⟩
    refine ⟨hp', ?_⟩
    cases c with
    | none => trivial
    | some c => exact (new c).unlocking hl
  · rintro t p p' hj - - hp
    cases hj <;> exact hp
  · rintro c m p rfl hc
    cases hc <;> exact new _
  · rintro m c hh
    cases hh
    exact new _

end

/-! ## Dropping the last reference -/

/-- The entry of which an instruction drops a strong reference. -/
def Instr.releases? {α : Type} : Instr R K E α → Option GenId
  | .dropStrong g _ _ => some g
  | _ => none

/-- The entry whose temporary, refused by `try_acquire`, a lookup is about to drop under the lock of
the slot's state. -/
def Pc.refused? : Pc R K E → Option GenId
  | .acquire _ (.claim (.dropResource _ _ g)) => some g
  | .discover _ _ (.dropEntry _ g) => some g
  | _ => none

/-- Where a thread goes on when it has dropped a reference. -/
def Instr.afterRelease? {α : Type} : Instr R K E α → Option α
  | .dropStrong _ _ k => some k
  | _ => none

/-- A thread that drops a reference holds no lock, unless it has been refused. -/
theorem free_of_releases (h : p.code.releases? = some g) :
    p.refused? = some g ∧ p.slot? ≠ none ∨ p.refused? = none ∧ p.slot? = none ∧ p.shard? = none := by
  cases p using Pc.points
  case acquire_claim_dropResource | discover_dropEntry =>
    exact .inl ⟨congrArg some (Option.some.inj h), nofun⟩
  all_goals first
    | exact .inr ⟨rfl, rfl, rfl⟩
    | exact absurd (h : none = some g) nofun

/-- After that it still holds none. -/
theorem free_of_afterRelease : ∀ p', p.code.afterRelease? = some p' →
    p.refused? = p.code.releases? ∨ p'.slot? = none ∧ p'.shard? = none := by
  cases p using Pc.points
  case acquire_claim_dropResource | discover_dropEntry => exact fun _ _ => .inl rfl
  all_goals intro p' h; first
    | exact absurd (h : none = some p') nofun
    | exact Option.some.inj h ▸ .inr ⟨rfl, rfl⟩

/-- Thread `t` holds the lock of a slot's state or of a shard of a registry's map. -/
def HoldsLock (s : State R K E) (t : Tid) : Prop :=
  (∃ i n, s.mem.slotLock i n = some t) ∨ ∃ r k, s.mem.shard r k = some t

/-- A lookup whose temporary has been refused does not drop the last strong reference. -/
def Spares (s : State R K E) (a : Action R K E) : Prop :=
  ∀ t ch g, a = .run t ch → (s.pc t).refused? = some g → s.mem.strong g ≠ 1

instance (s : State R K E) : (a : Action R K E) → Decidable (Spares s a)
  | .run t ch => decidable_of_iff (∀ g ∈ (s.pc t).refused?, s.mem.strong g ≠ 1)
    ⟨fun h _ _ g e hg => by cases e; exact h g hg, fun h g hg => h t ch g rfl hg⟩
  | .call _ | .dropFuture _ | .poll _ | .gate _ | .yield _ | .finish _ _ | .reap _ _
  | .dropTask _ _ | .dropSupervisor _ | .unwind _ | .clone _ _ | .move _ _ _ | .release _ _
  | .completion _ _ | .cloneCompletion _ | .dropCompletion _ => .isTrue nofun

section

variable [DecidableEq R] [DecidableEq K] {s s' : State R K E} {a : Action R K E}
  {ok : State R K E → Action R K E → Prop}

theorem not_holdsLock (hr : Reach (step cfg) ok State.new s) (h1 : (s.pc t).slot? = none)
    (h2 : (s.pc t).shard? = none) : ¬ HoldsLock s t := by
  obtain ⟨hslot, hshard⟩ := honest_of_reach hr t
  rintro (⟨i, n, h⟩ | ⟨r, k, h⟩)
  · exact nomatch h1.symm.trans (hslot i n h)
  · obtain ⟨i, hi, -⟩ := hshard r k h
    exact nomatch h2.symm.trans hi

/-- A thread that awaits a destructor holds no lock, when refused lookups spare the last
reference. -/
theorem free_of_awaits (hok : ∀ s a, ok s a → Spares s a) (hr : Reach (step cfg) ok State.new s)
    (t d : Tid) : (s.thread t).awaits = some d → (s.pc d).destroyed = false →
      (s.pc t).slot? = none ∧ (s.pc t).shard? = none := by
  revert t d
  refine hr.invariant_of_reach (fun s => ∀ t d, (s.thread t).awaits = some d →
    (s.pc d).destroyed = false → (s.pc t).slot? = none ∧ (s.pc t).shard? = none)
    (fun _ _ h => nomatch h) ?_
  intro s a s' hs ih ha h t d haw hd
  rcases awaits_cases h haw with ⟨hold, hpc | hdone⟩ | ⟨g, destructor, hcode, h1, ch, rfl⟩
  · rw [hpc]
    refine ih t d hold ?_
    cases hdone : (s.pc d).destroyed with
    | false => rfl
    | true => exact (destroyed_step h (fresh_of_reach hs) hdone).symm.trans hd
  · exact nomatch hd.symm.trans (destroyed_step h (fresh_of_reach hs) hdone)
  · have hg : (s.pc t).code.releases? = some g := hcode ▸ rfl
    have hp := free_of_afterRelease _ (congrArg Instr.afterRelease? hcode)
    exact hp.resolve_left fun hr => hok s _ ha t ch g rfl (hr.trans hg) h1

/-- **Where destructors run.** In every run, a thread that is about to drop the last strong reference
to an entry holds a lock of a registry exactly if the reference is the temporary of a lookup that
`try_acquire` has refused. So in a run in which no lookup drops the last reference there, nobody
drops a last reference under a lock, and nobody holds one while a destructor runs on top of it. -/
theorem destructors_run_unlocked (hr : Reach (step cfg) ok State.new s) :
    (∀ t g, (s.pc t).code.releases? = some g → s.mem.strong g = 1 →
      (HoldsLock s t ↔ (s.pc t).refused? = some g)) ∧
    ((∀ s a, ok s a → Spares s a) →
      (∀ t ch g, ok s (.run t ch) → (s.pc t).code.releases? = some g → s.mem.strong g = 1 →
        ¬ HoldsLock s t) ∧
      ∀ t d, (s.thread t).awaits = some d → (s.pc d).destroyed = false → ¬ HoldsLock s t) := by
  have exact_ (t : Tid) (g : GenId) (hg : (s.pc t).code.releases? = some g) :
      HoldsLock s t ↔ (s.pc t).refused? = some g := by
    rcases free_of_releases hg with ⟨href, hslot⟩ | ⟨hnone, hfree⟩
    · refine iff_of_true ?_ href
      have hl := (locked_of_reach hr t).slotLock
      cases hx : (s.pc t).slot? with
      | none => exact absurd hx hslot
      | some x =>
        rw [hx] at hl
        exact .inl ⟨x.1, x.2, hl⟩
    · refine iff_of_false (not_holdsLock hr hfree.1 hfree.2) ?_
      rw [hnone]
      exact nofun
  refine ⟨fun t g hg _ => exact_ t g hg, fun hok => ⟨fun t ch g ha hg h1 hl => ?_,
    fun t d haw hd => ?_⟩⟩
  · exact hok s _ ha t ch g rfl ((exact_ t g hg).mp hl) h1
  · obtain ⟨h1, h2⟩ := free_of_awaits hok hr t d haw hd
    exact not_holdsLock hr h1 h2

end

/-- A `get` has upgraded the entry of a generation when its only lease is dropped and its task ends;
`try_acquire` then refuses it. -/
def refusedRun : List (Action Unit Unit Unit) :=
  .call (.acquire ⟨.getOrSpawn, ⟨(), ()⟩⟩) :: List.replicate 26 (.run 0 .go) ++
    .call (.discover .get ⟨(), ()⟩) :: List.replicate 3 (.run 2 .go) ++
    [.release .outside 0, .poll 0, .gate 0, .finish 0 .ok] ++ List.replicate 3 (.run 1 .go) ++
    List.replicate 2 (.run 2 .go)

/-- The same with a `WeakResourceRef::upgrade` in the place of the `get`: it awaits the destructor. -/
def sparingRun : List (Action Unit Unit Unit) :=
  .call (.acquire ⟨.getOrSpawn, ⟨(), ()⟩⟩) :: List.replicate 26 (.run 0 .go) ++
    .call (.upgrade 0) :: List.replicate 3 (.run 2 .go) ++
    [.release .outside 0, .poll 0, .gate 0, .finish 0 .ok] ++ List.replicate 3 (.run 1 .go) ++
    List.replicate 2 (.run 2 .go)

theorem refusedRun_holdsLock :
    HoldsLock ((afterwards true refusedRun).get (by decide +kernel)) 2 ∧
      ¬ HoldsLock ((afterwards true sparingRun).get (by decide +kernel)) 2 := by
  have h1 := reach_afterwards (fun _ => True) (fun _ _ => trivial)
    (by decide +kernel : (afterwards true refusedRun).isSome = true)
  have h2 : Reach (step (.single true)) Spares State.new
      ((afterwards true sparingRun).get (by decide +kernel)) :=
    reach_allowed (by decide +kernel) (by decide +kernel)
  refine ⟨?_, ?_⟩
  · exact ((destructors_run_unlocked h1).1 2 0 (by decide +kernel) (by decide +kernel)).mpr
      (by decide +kernel)
  · exact ((destructors_run_unlocked h2).2 fun _ _ => id).2 2 3 (by decide +kernel)
      (by decide +kernel)

/-- The last reference can be dropped, and the destructor run, by a thread that holds the lock of the
slot's state. -/
theorem destroyed_under_lock : ¬ ∀ s : State Unit Unit Unit,
    Reach (step (.single true)) (fun _ _ => True) State.new s → ∀ t g,
      (s.pc t).code.releases? = some g → s.mem.strong g = 1 → ¬ HoldsLock s t := by
  intro h
  refine h ((afterwards true refusedRun).get (by decide +kernel))
    (reach_afterwards (fun _ => True) (fun _ _ => trivial) (by decide +kernel)) 2 0
    (by decide +kernel) (by decide +kernel) (.inl ⟨⟨(), ()⟩, 0, ?_⟩)
  decide +kernel

end Resourcery
