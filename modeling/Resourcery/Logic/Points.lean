import Mathlib.Tactic.CasesM
import Resourcery.Logic.Steps

/-!
# Program points

Case analysis on where a thread is. There is a rule for the points of an acquisition (`claim_inner`,
`create`, `finish_canonical_creation` and the construction guard), one for those of a supervising
future, one that leaves these two and the operations of the domain to their own lemmas, and one for
all points. Where the next instruction depends on a value the thread carries (the result of a claim,
whether there is a site, what has been found), each such value is a case of its own. The names of
the cases are the paths of constructors to them.
-/

namespace Resourcery

open ResourceContext

variable {R K E : Type}

/-- The points of an acquisition. -/
theorem ResourceContext.AcquirePc.points {motive : Request R K → AcquirePc → Prop}
    (accepting : ∀ q, motive q .accepting)
    (claim_entry : ∀ q, motive q (.claim .entry))
    (claim_lockSlot : ∀ q n, motive q (.claim (.lockSlot n)))
    (claim_listen : ∀ q n, motive q (.claim (.listen n)))
    (claim_upgrade : ∀ q n generation g, motive q (.claim (.upgrade n generation g)))
    (claim_tryAcquire_accepting :
      ∀ q n generation g, motive q (.claim (.tryAcquire n generation g .accepting)))
    (claim_tryAcquire_active :
      ∀ q n generation g, motive q (.claim (.tryAcquire n generation g .active)))
    (claim_tryAcquire_acceptingAgain :
      ∀ q n generation g, motive q (.claim (.tryAcquire n generation g .acceptingAgain)))
    (claim_tryAcquire_activeAgain :
      ∀ q n generation g, motive q (.claim (.tryAcquire n generation g .activeAgain)))
    (claim_dropResource : ∀ q n generation g, motive q (.claim (.dropResource n generation g)))
    (claim_recheck : ∀ q n generation g, motive q (.claim (.recheck n generation g)))
    (claim_takeover : ∀ q n generation g, motive q (.claim (.takeover n generation g)))
    (claim_vacant : ∀ q, motive q (.claim .vacant))
    (claim_insert : ∀ q, motive q (.claim .insert))
    (claim_dropState : ∀ q n claim, motive q (.claim (.dropState n claim)))
    (claim_dropEntry_spawn_active : ∀ i g, motive ⟨.spawn, i⟩ (.claim (.dropEntry (.active g))))
    (claim_dropEntry_spawn_owner :
      ∀ i n generation, motive ⟨.spawn, i⟩ (.claim (.dropEntry (.owner n generation))))
    (claim_dropEntry_spawn_wait :
      ∀ i n seen, motive ⟨.spawn, i⟩ (.claim (.dropEntry (.wait n seen))))
    (claim_dropEntry_spawn_occupied : ∀ i, motive ⟨.spawn, i⟩ (.claim (.dropEntry .occupied)))
    (claim_dropEntry_spawn_shuttingDown :
      ∀ i, motive ⟨.spawn, i⟩ (.claim (.dropEntry .shuttingDown)))
    (claim_dropEntry_getOrSpawn_active :
      ∀ i g, motive ⟨.getOrSpawn, i⟩ (.claim (.dropEntry (.active g))))
    (claim_dropEntry_getOrSpawn_owner :
      ∀ i n generation, motive ⟨.getOrSpawn, i⟩ (.claim (.dropEntry (.owner n generation))))
    (claim_dropEntry_getOrSpawn_wait :
      ∀ i n seen, motive ⟨.getOrSpawn, i⟩ (.claim (.dropEntry (.wait n seen))))
    (claim_dropEntry_getOrSpawn_occupied :
      ∀ i, motive ⟨.getOrSpawn, i⟩ (.claim (.dropEntry .occupied)))
    (claim_dropEntry_getOrSpawn_shuttingDown :
      ∀ i, motive ⟨.getOrSpawn, i⟩ (.claim (.dropEntry .shuttingDown)))
    (claim_dropEntry_tryGetOrSpawn_active :
      ∀ i g, motive ⟨.tryGetOrSpawn, i⟩ (.claim (.dropEntry (.active g))))
    (claim_dropEntry_tryGetOrSpawn_owner :
      ∀ i n generation, motive ⟨.tryGetOrSpawn, i⟩ (.claim (.dropEntry (.owner n generation))))
    (claim_dropEntry_tryGetOrSpawn_wait :
      ∀ i n seen, motive ⟨.tryGetOrSpawn, i⟩ (.claim (.dropEntry (.wait n seen))))
    (claim_dropEntry_tryGetOrSpawn_occupied :
      ∀ i, motive ⟨.tryGetOrSpawn, i⟩ (.claim (.dropEntry .occupied)))
    (claim_dropEntry_tryGetOrSpawn_shuttingDown :
      ∀ i, motive ⟨.tryGetOrSpawn, i⟩ (.claim (.dropEntry .shuttingDown)))
    (claim_dropFound_spawn : ∀ g i, motive ⟨.spawn, i⟩ (.claim (.dropFound g)))
    (claim_dropFound_getOrSpawn : ∀ g i, motive ⟨.getOrSpawn, i⟩ (.claim (.dropFound g)))
    (claim_dropFound_tryGetOrSpawn : ∀ g i, motive ⟨.tryGetOrSpawn, i⟩ (.claim (.dropFound g)))
    (listener : ∀ q n seen, motive q (.listener n seen))
    (cloneKey : ∀ q n generation, motive q (.cloneKey n generation))
    (cloneCleanupKey : ∀ q n generation, motive q (.cloneCleanupKey n generation))
    (create_accepting_none : ∀ q, motive q (.create none .accepting))
    (create_accepting_some : ∀ q x, motive q (.create (some x) .accepting))
    (create_build_none : ∀ q, motive q (.create none .build))
    (create_build_some : ∀ q x, motive q (.create (some x) .build))
    (create_newEntry : ∀ q site, motive q (.create site .newEntry))
    (create_spawnTask : ∀ q site g, motive q (.create site (.spawnTask g)))
    (create_register_accepting : ∀ q site g, motive q (.create site (.register g .accepting)))
    (create_register_lock : ∀ q site g, motive q (.create site (.register g .lock)))
    (create_register_acceptingLocked :
      ∀ q site g, motive q (.create site (.register g .acceptingLocked)))
    (create_register_activate : ∀ q site g, motive q (.create site (.register g .activate)))
    (create_register_insert : ∀ q site g, motive q (.create site (.register g .insert)))
    (create_register_dropSupervisor_none :
      ∀ q site g, motive q (.create site (.register g (.dropSupervisor none))))
    (create_register_dropSupervisor_some :
      ∀ q site g x, motive q (.create site (.register g (.dropSupervisor (some x)))))
    (create_insertLive : ∀ q site g id, motive q (.create site (.insertLive g id)))
    (create_spawnSupervisor_none : ∀ q g id, motive q (.create none (.spawnSupervisor g id)))
    (create_spawnSupervisor_some : ∀ q g id x, motive q (.create (some x) (.spawnSupervisor g id)))
    (create_abort : ∀ q site g, motive q (.create site (.abort g)))
    (create_cancel_load : ∀ q site g, motive q (.create site (.cancel g .load)))
    (create_cancel_exchange :
      ∀ q site g current, motive q (.create site (.cancel g (.exchange current))))
    (create_cancel_token : ∀ q site g, motive q (.create site (.cancel g .token)))
    (create_dropStart : ∀ q site g, motive q (.create site (.dropStart g)))
    (create_dropEntry : ∀ q site g, motive q (.create site (.dropEntry g)))
    (create_dropSender_none : ∀ q g, motive q (.create none (.dropSender g)))
    (create_dropSender_some : ∀ q g x, motive q (.create (some x) (.dropSender g)))
    (settle_accepting : ∀ q n generation g, motive q (.settle n generation g .accepting))
    (settle_lockState : ∀ q n generation g, motive q (.settle n generation g .lockState))
    (settle_storeActive : ∀ q n generation g, motive q (.settle n generation g .storeActive))
    (settle_dropState : ∀ q n generation g, motive q (.settle n generation g .dropState))
    (settle_notify : ∀ q n generation g, motive q (.settle n generation g .notify))
    (settle_start : ∀ q n generation g, motive q (.settle n generation g .start))
    (settle_lateStart : ∀ q n generation g, motive q (.settle n generation g .lateStart))
    (settle_dropResource : ∀ q n generation g, motive q (.settle n generation g .dropResource))
    (guard_remove_entry :
      ∀ q n generation result, motive q (.guard n generation result (.remove .entry)))
    (guard_remove_hasGeneration :
      ∀ q n generation result, motive q (.guard n generation result (.remove .hasGeneration)))
    (guard_remove_dropState_false :
      ∀ q n generation result, motive q (.guard n generation result (.remove (.dropState false))))
    (guard_remove_dropState_true :
      ∀ q n generation result, motive q (.guard n generation result (.remove (.dropState true))))
    (guard_remove_remove :
      ∀ q n generation result, motive q (.guard n generation result (.remove .remove)))
    (guard_remove_dropEntry :
      ∀ q n generation result, motive q (.guard n generation result (.remove .dropEntry)))
    (guard_notify : ∀ q n generation result, motive q (.guard n generation result .notify))
    (start : ∀ q g, motive q (.start g))
    (deliver : ∀ q g, motive q (.deliver g))
    (returned : ∀ q result, motive q (.returned result))
    (q : Request R K) (p : AcquirePc) : motive q p := by
  cases_type* AcquirePc CreatePc SettlePc GuardPc Registry.ClaimPc Registry.RemovePc
    Domain.TryAcquirePc Domain.RegisterPc Control.CancelPc
  case' guard.remove.dropState x | create.accepting x | create.build x
    | create.spawnSupervisor x _ _ | create.dropSender x _ | create.register.dropSupervisor x =>
    cases x
  case' claim.dropEntry => obtain ⟨_ | _ | _, i⟩ := q <;> cases p
  case' claim.dropFound => obtain ⟨_ | _ | _, i⟩ := q
  all_goals apply_assumption

/-- The points of a supervising future. -/
theorem ResourceContext.SupervisePc.points {motive : Option Site → SupervisePc E → Prop}
    (unpolled : ∀ site, motive site .unpolled)
    (join : ∀ site, motive site .join)
    (finish_none : ∀ result, motive none (.finish result))
    (finish_some : ∀ result x, motive (some x) (.finish result))
    (cleanup_entry : ∀ site x outcome, motive site (.cleanup x outcome .entry))
    (cleanup_hasGeneration : ∀ site x outcome, motive site (.cleanup x outcome .hasGeneration))
    (cleanup_dropState_false :
      ∀ site x outcome, motive site (.cleanup x outcome (.dropState false)))
    (cleanup_dropState_true : ∀ site x outcome, motive site (.cleanup x outcome (.dropState true)))
    (cleanup_remove : ∀ site x outcome, motive site (.cleanup x outcome .remove))
    (cleanup_dropEntry : ∀ site x outcome, motive site (.cleanup x outcome .dropEntry))
    (publish : ∀ site outcome cleanupPanicked, motive site (.publish outcome cleanupPanicked))
    (removeLive : ∀ site, motive site .removeLive)
    (finalize_lock : ∀ site exit, motive site (.finalize exit .lock))
    (finalize_remove : ∀ site exit, motive site (.finalize exit .remove))
    (finalize_accepting : ∀ site exit, motive site (.finalize exit .accepting))
    (finalize_isEmpty : ∀ site exit, motive site (.finalize exit .isEmpty))
    (finalize_storeTerminated : ∀ site exit, motive site (.finalize exit .storeTerminated))
    (finalize_dropSupervisor_false :
      ∀ site exit, motive site (.finalize exit (.dropSupervisor false)))
    (finalize_dropSupervisor_true :
      ∀ site exit, motive site (.finalize exit (.dropSupervisor true)))
    (finalize_notify : ∀ site exit, motive site (.finalize exit .notify))
    (dropSender : ∀ site exit, motive site (.dropSender exit))
    (ended : ∀ site exit, motive site (.ended exit))
    (site : Option Site) (p : SupervisePc E) : motive site p := by
  cases_type* SupervisePc Registry.RemovePc Domain.FinishedPc
  case' finish => cases site
  case' finalize.dropSupervisor x | cleanup.dropState x => cases x
  all_goals apply_assumption

/-- The points of the threads, up to those of acquisitions, of supervising futures and of the
operations of the domain. -/
theorem Pc.operations {motive : Pc R K E → Prop}
    (idle : motive .idle)
    (acquire : ∀ q p, motive (.acquire q p))
    (discover_slot : ∀ q i, motive (.discover q i .slot))
    (discover_lockSlot : ∀ q i n, motive (.discover q i (.lockSlot n)))
    (discover_upgrade : ∀ q i n g, motive (.discover q i (.upgrade n g)))
    (discover_tryAcquire_accepting : ∀ q i n g, motive (.discover q i (.tryAcquire n g .accepting)))
    (discover_tryAcquire_active : ∀ q i n g, motive (.discover q i (.tryAcquire n g .active)))
    (discover_tryAcquire_acceptingAgain :
      ∀ q i n g, motive (.discover q i (.tryAcquire n g .acceptingAgain)))
    (discover_tryAcquire_activeAgain :
      ∀ q i n g, motive (.discover q i (.tryAcquire n g .activeAgain)))
    (discover_dropEntry : ∀ q i n g, motive (.discover q i (.dropEntry n g)))
    (discover_dropState_absent : ∀ q i n, motive (.discover q i (.dropState n .absent)))
    (discover_dropState_starting : ∀ q i n, motive (.discover q i (.dropState n .starting)))
    (discover_dropState_active : ∀ q i n g, motive (.discover q i (.dropState n (.active g))))
    (discover_deliver : ∀ q i g, motive (.discover q i (.deliver g)))
    (discover_returned : ∀ q i st, motive (.discover q i (.returned st)))
    (discover_panicked : ∀ q i, motive (.discover q i .panicked))
    (all_iter : ∀ r, motive (.all r .iter))
    (all_collect : ∀ r keys snapshot, motive (.all r (.collect keys snapshot)))
    (all_filter_nil : ∀ r found, motive (.all r (.filter [] found)))
    (all_filter_cons : ∀ r found g todo, motive (.all r (.filter (g :: todo) found)))
    (all_tryAcquire_accepting :
      ∀ r g todo found, motive (.all r (.tryAcquire g todo found .accepting)))
    (all_tryAcquire_active : ∀ r g todo found, motive (.all r (.tryAcquire g todo found .active)))
    (all_tryAcquire_acceptingAgain :
      ∀ r g todo found, motive (.all r (.tryAcquire g todo found .acceptingAgain)))
    (all_tryAcquire_activeAgain :
      ∀ r g todo found, motive (.all r (.tryAcquire g todo found .activeAgain)))
    (all_dropEntry : ∀ r g todo found, motive (.all r (.dropEntry g todo found)))
    (all_returned : ∀ r found, motive (.all r (.returned found)))
    (upgrade_entry : ∀ g, motive (.upgrade g .entry))
    (upgrade_domain : ∀ g, motive (.upgrade g .domain))
    (upgrade_tryAcquire_accepting : ∀ g, motive (.upgrade g (.tryAcquire .accepting)))
    (upgrade_tryAcquire_active : ∀ g, motive (.upgrade g (.tryAcquire .active)))
    (upgrade_tryAcquire_acceptingAgain : ∀ g, motive (.upgrade g (.tryAcquire .acceptingAgain)))
    (upgrade_tryAcquire_activeAgain : ∀ g, motive (.upgrade g (.tryAcquire .activeAgain)))
    (upgrade_dropEntry : ∀ g, motive (.upgrade g .dropEntry))
    (upgrade_deliver : ∀ g, motive (.upgrade g .deliver))
    (upgrade_returned : ∀ g result, motive (.upgrade g (.returned result)))
    (cancel : ∀ p, motive (.cancel p))
    (cancelled : motive .cancelled)
    (shutdown : ∀ p, motive (.shutdown p))
    (terminate_cancel : ∀ p, motive (.terminate (.cancel p)))
    (terminate_lock : motive (.terminate .lock))
    (terminate_collect : motive (.terminate .collect))
    (terminate_dropSupervisor : ∀ aborts, motive (.terminate (.dropSupervisor aborts)))
    (terminate_abort : ∀ aborts, motive (.terminate (.abort aborts)))
    (terminate_abortOne : ∀ g aborts, motive (.terminate (.abortOne g aborts)))
    (terminate_shutdown : ∀ p, motive (.terminate (.shutdown p)))
    (wait_borrow : ∀ g seen, motive (.wait g (.borrow seen)))
    (wait_changed : ∀ g seen, motive (.wait g (.changed seen)))
    (wait_dropReceiver_none : ∀ g, motive (.wait g (.dropReceiver none)))
    (wait_dropReceiver_some : ∀ g x, motive (.wait g (.dropReceiver (some x))))
    (wait_returned : ∀ g outcome, motive (.wait g (.returned outcome)))
    (wait_dropped : ∀ g, motive (.wait g .dropped))
    (drop_cancel_load : ∀ g, motive (.drop g (.cancel .load)))
    (drop_cancel_exchange : ∀ g current, motive (.drop g (.cancel (.exchange current))))
    (drop_cancel_token : ∀ g, motive (.drop g (.cancel .token)))
    (drop_fields : ∀ g, motive (.drop g .fields))
    (drop_finished : ∀ g, motive (.drop g .finished))
    (supervise : ∀ i g id site p, motive (.supervise i g id site p))
    (p : Pc R K E) : motive p := by
  cases_type* Pc Domain.TryAcquirePc Domain.TerminatePc StatusPc AllPc WeakResourceRef.UpgradePc
    ResourceCompletion.WaitPc Entry.DropPc
  case' drop.cancel p => cases p
  case' all.filter x _ | wait.dropReceiver x | discover.dropState x => cases x
  all_goals apply_assumption

/-- The points of the threads. -/
theorem Pc.points {motive : Pc R K E → Prop}
    (idle : motive .idle)
    (acquire_accepting : ∀ q, motive (.acquire q .accepting))
    (acquire_claim_entry : ∀ q, motive (.acquire q (.claim .entry)))
    (acquire_claim_lockSlot : ∀ q n, motive (.acquire q (.claim (.lockSlot n))))
    (acquire_claim_listen : ∀ q n, motive (.acquire q (.claim (.listen n))))
    (acquire_claim_upgrade :
      ∀ q n generation g, motive (.acquire q (.claim (.upgrade n generation g))))
    (acquire_claim_tryAcquire_accepting :
      ∀ q n generation g, motive (.acquire q (.claim (.tryAcquire n generation g .accepting))))
    (acquire_claim_tryAcquire_active :
      ∀ q n generation g, motive (.acquire q (.claim (.tryAcquire n generation g .active))))
    (acquire_claim_tryAcquire_acceptingAgain :
      ∀ q n generation g, motive (.acquire q (.claim (.tryAcquire n generation g .acceptingAgain))))
    (acquire_claim_tryAcquire_activeAgain :
      ∀ q n generation g, motive (.acquire q (.claim (.tryAcquire n generation g .activeAgain))))
    (acquire_claim_dropResource :
      ∀ q n generation g, motive (.acquire q (.claim (.dropResource n generation g))))
    (acquire_claim_recheck :
      ∀ q n generation g, motive (.acquire q (.claim (.recheck n generation g))))
    (acquire_claim_takeover :
      ∀ q n generation g, motive (.acquire q (.claim (.takeover n generation g))))
    (acquire_claim_vacant : ∀ q, motive (.acquire q (.claim .vacant)))
    (acquire_claim_insert : ∀ q, motive (.acquire q (.claim .insert)))
    (acquire_claim_dropState : ∀ q n claim, motive (.acquire q (.claim (.dropState n claim))))
    (acquire_claim_dropEntry_spawn_active :
      ∀ i g, motive (.acquire ⟨.spawn, i⟩ (.claim (.dropEntry (.active g)))))
    (acquire_claim_dropEntry_spawn_owner :
      ∀ i n generation, motive (.acquire ⟨.spawn, i⟩ (.claim (.dropEntry (.owner n generation)))))
    (acquire_claim_dropEntry_spawn_wait :
      ∀ i n seen, motive (.acquire ⟨.spawn, i⟩ (.claim (.dropEntry (.wait n seen)))))
    (acquire_claim_dropEntry_spawn_occupied :
      ∀ i, motive (.acquire ⟨.spawn, i⟩ (.claim (.dropEntry .occupied))))
    (acquire_claim_dropEntry_spawn_shuttingDown :
      ∀ i, motive (.acquire ⟨.spawn, i⟩ (.claim (.dropEntry .shuttingDown))))
    (acquire_claim_dropEntry_getOrSpawn_active :
      ∀ i g, motive (.acquire ⟨.getOrSpawn, i⟩ (.claim (.dropEntry (.active g)))))
    (acquire_claim_dropEntry_getOrSpawn_owner :
      ∀ i n generation,
        motive (.acquire ⟨.getOrSpawn, i⟩ (.claim (.dropEntry (.owner n generation)))))
    (acquire_claim_dropEntry_getOrSpawn_wait :
      ∀ i n seen, motive (.acquire ⟨.getOrSpawn, i⟩ (.claim (.dropEntry (.wait n seen)))))
    (acquire_claim_dropEntry_getOrSpawn_occupied :
      ∀ i, motive (.acquire ⟨.getOrSpawn, i⟩ (.claim (.dropEntry .occupied))))
    (acquire_claim_dropEntry_getOrSpawn_shuttingDown :
      ∀ i, motive (.acquire ⟨.getOrSpawn, i⟩ (.claim (.dropEntry .shuttingDown))))
    (acquire_claim_dropEntry_tryGetOrSpawn_active :
      ∀ i g, motive (.acquire ⟨.tryGetOrSpawn, i⟩ (.claim (.dropEntry (.active g)))))
    (acquire_claim_dropEntry_tryGetOrSpawn_owner :
      ∀ i n generation,
        motive (.acquire ⟨.tryGetOrSpawn, i⟩ (.claim (.dropEntry (.owner n generation)))))
    (acquire_claim_dropEntry_tryGetOrSpawn_wait :
      ∀ i n seen, motive (.acquire ⟨.tryGetOrSpawn, i⟩ (.claim (.dropEntry (.wait n seen)))))
    (acquire_claim_dropEntry_tryGetOrSpawn_occupied :
      ∀ i, motive (.acquire ⟨.tryGetOrSpawn, i⟩ (.claim (.dropEntry .occupied))))
    (acquire_claim_dropEntry_tryGetOrSpawn_shuttingDown :
      ∀ i, motive (.acquire ⟨.tryGetOrSpawn, i⟩ (.claim (.dropEntry .shuttingDown))))
    (acquire_claim_dropFound_spawn : ∀ g i, motive (.acquire ⟨.spawn, i⟩ (.claim (.dropFound g))))
    (acquire_claim_dropFound_getOrSpawn :
      ∀ g i, motive (.acquire ⟨.getOrSpawn, i⟩ (.claim (.dropFound g))))
    (acquire_claim_dropFound_tryGetOrSpawn :
      ∀ g i, motive (.acquire ⟨.tryGetOrSpawn, i⟩ (.claim (.dropFound g))))
    (acquire_listener : ∀ q n seen, motive (.acquire q (.listener n seen)))
    (acquire_cloneKey : ∀ q n generation, motive (.acquire q (.cloneKey n generation)))
    (acquire_cloneCleanupKey :
      ∀ q n generation, motive (.acquire q (.cloneCleanupKey n generation)))
    (acquire_create_accepting_none : ∀ q, motive (.acquire q (.create none .accepting)))
    (acquire_create_accepting_some : ∀ q x, motive (.acquire q (.create (some x) .accepting)))
    (acquire_create_build_none : ∀ q, motive (.acquire q (.create none .build)))
    (acquire_create_build_some : ∀ q x, motive (.acquire q (.create (some x) .build)))
    (acquire_create_newEntry : ∀ q site, motive (.acquire q (.create site .newEntry)))
    (acquire_create_spawnTask : ∀ q site g, motive (.acquire q (.create site (.spawnTask g))))
    (acquire_create_register_accepting :
      ∀ q site g, motive (.acquire q (.create site (.register g .accepting))))
    (acquire_create_register_lock :
      ∀ q site g, motive (.acquire q (.create site (.register g .lock))))
    (acquire_create_register_acceptingLocked :
      ∀ q site g, motive (.acquire q (.create site (.register g .acceptingLocked))))
    (acquire_create_register_activate :
      ∀ q site g, motive (.acquire q (.create site (.register g .activate))))
    (acquire_create_register_insert :
      ∀ q site g, motive (.acquire q (.create site (.register g .insert))))
    (acquire_create_register_dropSupervisor_none :
      ∀ q site g, motive (.acquire q (.create site (.register g (.dropSupervisor none)))))
    (acquire_create_register_dropSupervisor_some :
      ∀ q site g x, motive (.acquire q (.create site (.register g (.dropSupervisor (some x))))))
    (acquire_create_insertLive :
      ∀ q site g id, motive (.acquire q (.create site (.insertLive g id))))
    (acquire_create_spawnSupervisor_none :
      ∀ q g id, motive (.acquire q (.create none (.spawnSupervisor g id))))
    (acquire_create_spawnSupervisor_some :
      ∀ q g id x, motive (.acquire q (.create (some x) (.spawnSupervisor g id))))
    (acquire_create_abort : ∀ q site g, motive (.acquire q (.create site (.abort g))))
    (acquire_create_cancel_load : ∀ q site g, motive (.acquire q (.create site (.cancel g .load))))
    (acquire_create_cancel_exchange :
      ∀ q site g current, motive (.acquire q (.create site (.cancel g (.exchange current)))))
    (acquire_create_cancel_token :
      ∀ q site g, motive (.acquire q (.create site (.cancel g .token))))
    (acquire_create_dropStart : ∀ q site g, motive (.acquire q (.create site (.dropStart g))))
    (acquire_create_dropEntry : ∀ q site g, motive (.acquire q (.create site (.dropEntry g))))
    (acquire_create_dropSender_none : ∀ q g, motive (.acquire q (.create none (.dropSender g))))
    (acquire_create_dropSender_some :
      ∀ q g x, motive (.acquire q (.create (some x) (.dropSender g))))
    (acquire_settle_accepting :
      ∀ q n generation g, motive (.acquire q (.settle n generation g .accepting)))
    (acquire_settle_lockState :
      ∀ q n generation g, motive (.acquire q (.settle n generation g .lockState)))
    (acquire_settle_storeActive :
      ∀ q n generation g, motive (.acquire q (.settle n generation g .storeActive)))
    (acquire_settle_dropState :
      ∀ q n generation g, motive (.acquire q (.settle n generation g .dropState)))
    (acquire_settle_notify :
      ∀ q n generation g, motive (.acquire q (.settle n generation g .notify)))
    (acquire_settle_start : ∀ q n generation g, motive (.acquire q (.settle n generation g .start)))
    (acquire_settle_lateStart :
      ∀ q n generation g, motive (.acquire q (.settle n generation g .lateStart)))
    (acquire_settle_dropResource :
      ∀ q n generation g, motive (.acquire q (.settle n generation g .dropResource)))
    (acquire_guard_remove_entry :
      ∀ q n generation result, motive (.acquire q (.guard n generation result (.remove .entry))))
    (acquire_guard_remove_hasGeneration :
      ∀ q n generation result,
        motive (.acquire q (.guard n generation result (.remove .hasGeneration))))
    (acquire_guard_remove_dropState_false :
      ∀ q n generation result,
        motive (.acquire q (.guard n generation result (.remove (.dropState false)))))
    (acquire_guard_remove_dropState_true :
      ∀ q n generation result,
        motive (.acquire q (.guard n generation result (.remove (.dropState true)))))
    (acquire_guard_remove_remove :
      ∀ q n generation result, motive (.acquire q (.guard n generation result (.remove .remove))))
    (acquire_guard_remove_dropEntry :
      ∀ q n generation result,
        motive (.acquire q (.guard n generation result (.remove .dropEntry))))
    (acquire_guard_notify :
      ∀ q n generation result, motive (.acquire q (.guard n generation result .notify)))
    (acquire_start : ∀ q g, motive (.acquire q (.start g)))
    (acquire_deliver : ∀ q g, motive (.acquire q (.deliver g)))
    (acquire_returned : ∀ q result, motive (.acquire q (.returned result)))
    (discover_slot : ∀ q i, motive (.discover q i .slot))
    (discover_lockSlot : ∀ q i n, motive (.discover q i (.lockSlot n)))
    (discover_upgrade : ∀ q i n g, motive (.discover q i (.upgrade n g)))
    (discover_tryAcquire_accepting : ∀ q i n g, motive (.discover q i (.tryAcquire n g .accepting)))
    (discover_tryAcquire_active : ∀ q i n g, motive (.discover q i (.tryAcquire n g .active)))
    (discover_tryAcquire_acceptingAgain :
      ∀ q i n g, motive (.discover q i (.tryAcquire n g .acceptingAgain)))
    (discover_tryAcquire_activeAgain :
      ∀ q i n g, motive (.discover q i (.tryAcquire n g .activeAgain)))
    (discover_dropEntry : ∀ q i n g, motive (.discover q i (.dropEntry n g)))
    (discover_dropState_absent : ∀ q i n, motive (.discover q i (.dropState n .absent)))
    (discover_dropState_starting : ∀ q i n, motive (.discover q i (.dropState n .starting)))
    (discover_dropState_active : ∀ q i n g, motive (.discover q i (.dropState n (.active g))))
    (discover_deliver : ∀ q i g, motive (.discover q i (.deliver g)))
    (discover_returned : ∀ q i st, motive (.discover q i (.returned st)))
    (discover_panicked : ∀ q i, motive (.discover q i .panicked))
    (all_iter : ∀ r, motive (.all r .iter))
    (all_collect : ∀ r keys snapshot, motive (.all r (.collect keys snapshot)))
    (all_filter_nil : ∀ r found, motive (.all r (.filter [] found)))
    (all_filter_cons : ∀ r found g todo, motive (.all r (.filter (g :: todo) found)))
    (all_tryAcquire_accepting :
      ∀ r g todo found, motive (.all r (.tryAcquire g todo found .accepting)))
    (all_tryAcquire_active : ∀ r g todo found, motive (.all r (.tryAcquire g todo found .active)))
    (all_tryAcquire_acceptingAgain :
      ∀ r g todo found, motive (.all r (.tryAcquire g todo found .acceptingAgain)))
    (all_tryAcquire_activeAgain :
      ∀ r g todo found, motive (.all r (.tryAcquire g todo found .activeAgain)))
    (all_dropEntry : ∀ r g todo found, motive (.all r (.dropEntry g todo found)))
    (all_returned : ∀ r found, motive (.all r (.returned found)))
    (upgrade_entry : ∀ g, motive (.upgrade g .entry))
    (upgrade_domain : ∀ g, motive (.upgrade g .domain))
    (upgrade_tryAcquire_accepting : ∀ g, motive (.upgrade g (.tryAcquire .accepting)))
    (upgrade_tryAcquire_active : ∀ g, motive (.upgrade g (.tryAcquire .active)))
    (upgrade_tryAcquire_acceptingAgain : ∀ g, motive (.upgrade g (.tryAcquire .acceptingAgain)))
    (upgrade_tryAcquire_activeAgain : ∀ g, motive (.upgrade g (.tryAcquire .activeAgain)))
    (upgrade_dropEntry : ∀ g, motive (.upgrade g .dropEntry))
    (upgrade_deliver : ∀ g, motive (.upgrade g .deliver))
    (upgrade_returned : ∀ g result, motive (.upgrade g (.returned result)))
    (cancel_lock : motive (.cancel .lock))
    (cancel_exchange : motive (.cancel .exchange))
    (cancel_token : motive (.cancel .token))
    (cancel_loadPhase : motive (.cancel .loadPhase))
    (cancel_collect : motive (.cancel .collect))
    (cancel_storeTerminated : motive (.cancel .storeTerminated))
    (cancel_notify : motive (.cancel .notify))
    (cancel_dropSupervisor : ∀ controls, motive (.cancel (.dropSupervisor controls)))
    (cancel_next : ∀ controls, motive (.cancel (.next controls)))
    (cancel_control_load : ∀ g controls, motive (.cancel (.control g controls .load)))
    (cancel_control_exchange :
      ∀ g controls current, motive (.cancel (.control g controls (.exchange current))))
    (cancel_control_token : ∀ g controls, motive (.cancel (.control g controls .token)))
    (cancelled : motive .cancelled)
    (shutdown_cancel_lock : motive (.shutdown (.cancel .lock)))
    (shutdown_cancel_exchange : motive (.shutdown (.cancel .exchange)))
    (shutdown_cancel_token : motive (.shutdown (.cancel .token)))
    (shutdown_cancel_loadPhase : motive (.shutdown (.cancel .loadPhase)))
    (shutdown_cancel_collect : motive (.shutdown (.cancel .collect)))
    (shutdown_cancel_storeTerminated : motive (.shutdown (.cancel .storeTerminated)))
    (shutdown_cancel_notify : motive (.shutdown (.cancel .notify)))
    (shutdown_cancel_dropSupervisor :
      ∀ controls, motive (.shutdown (.cancel (.dropSupervisor controls))))
    (shutdown_cancel_next : ∀ controls, motive (.shutdown (.cancel (.next controls))))
    (shutdown_cancel_control_load :
      ∀ g controls, motive (.shutdown (.cancel (.control g controls .load))))
    (shutdown_cancel_control_exchange :
      ∀ g controls current, motive (.shutdown (.cancel (.control g controls (.exchange current)))))
    (shutdown_cancel_control_token :
      ∀ g controls, motive (.shutdown (.cancel (.control g controls .token))))
    (shutdown_notified : motive (.shutdown .notified))
    (shutdown_loadPhase : ∀ seen, motive (.shutdown (.loadPhase seen)))
    (shutdown_wait : ∀ seen, motive (.shutdown (.wait seen)))
    (shutdown_returned : motive (.shutdown .returned))
    (shutdown_dropped : motive (.shutdown .dropped))
    (terminate_cancel_lock : motive (.terminate (.cancel .lock)))
    (terminate_cancel_exchange : motive (.terminate (.cancel .exchange)))
    (terminate_cancel_token : motive (.terminate (.cancel .token)))
    (terminate_cancel_loadPhase : motive (.terminate (.cancel .loadPhase)))
    (terminate_cancel_collect : motive (.terminate (.cancel .collect)))
    (terminate_cancel_storeTerminated : motive (.terminate (.cancel .storeTerminated)))
    (terminate_cancel_notify : motive (.terminate (.cancel .notify)))
    (terminate_cancel_dropSupervisor :
      ∀ controls, motive (.terminate (.cancel (.dropSupervisor controls))))
    (terminate_cancel_next : ∀ controls, motive (.terminate (.cancel (.next controls))))
    (terminate_cancel_control_load :
      ∀ g controls, motive (.terminate (.cancel (.control g controls .load))))
    (terminate_cancel_control_exchange :
      ∀ g controls current, motive (.terminate (.cancel (.control g controls (.exchange current)))))
    (terminate_cancel_control_token :
      ∀ g controls, motive (.terminate (.cancel (.control g controls .token))))
    (terminate_lock : motive (.terminate .lock))
    (terminate_collect : motive (.terminate .collect))
    (terminate_dropSupervisor : ∀ aborts, motive (.terminate (.dropSupervisor aborts)))
    (terminate_abort : ∀ aborts, motive (.terminate (.abort aborts)))
    (terminate_abortOne : ∀ g aborts, motive (.terminate (.abortOne g aborts)))
    (terminate_shutdown_cancel_lock : motive (.terminate (.shutdown (.cancel .lock))))
    (terminate_shutdown_cancel_exchange : motive (.terminate (.shutdown (.cancel .exchange))))
    (terminate_shutdown_cancel_token : motive (.terminate (.shutdown (.cancel .token))))
    (terminate_shutdown_cancel_loadPhase : motive (.terminate (.shutdown (.cancel .loadPhase))))
    (terminate_shutdown_cancel_collect : motive (.terminate (.shutdown (.cancel .collect))))
    (terminate_shutdown_cancel_storeTerminated :
      motive (.terminate (.shutdown (.cancel .storeTerminated))))
    (terminate_shutdown_cancel_notify : motive (.terminate (.shutdown (.cancel .notify))))
    (terminate_shutdown_cancel_dropSupervisor :
      ∀ controls, motive (.terminate (.shutdown (.cancel (.dropSupervisor controls)))))
    (terminate_shutdown_cancel_next :
      ∀ controls, motive (.terminate (.shutdown (.cancel (.next controls)))))
    (terminate_shutdown_cancel_control_load :
      ∀ g controls, motive (.terminate (.shutdown (.cancel (.control g controls .load)))))
    (terminate_shutdown_cancel_control_exchange :
      ∀ g controls current,
        motive (.terminate (.shutdown (.cancel (.control g controls (.exchange current))))))
    (terminate_shutdown_cancel_control_token :
      ∀ g controls, motive (.terminate (.shutdown (.cancel (.control g controls .token)))))
    (terminate_shutdown_notified : motive (.terminate (.shutdown .notified)))
    (terminate_shutdown_loadPhase : ∀ seen, motive (.terminate (.shutdown (.loadPhase seen))))
    (terminate_shutdown_wait : ∀ seen, motive (.terminate (.shutdown (.wait seen))))
    (terminate_shutdown_returned : motive (.terminate (.shutdown .returned)))
    (terminate_shutdown_dropped : motive (.terminate (.shutdown .dropped)))
    (wait_borrow : ∀ g seen, motive (.wait g (.borrow seen)))
    (wait_changed : ∀ g seen, motive (.wait g (.changed seen)))
    (wait_dropReceiver_none : ∀ g, motive (.wait g (.dropReceiver none)))
    (wait_dropReceiver_some : ∀ g x, motive (.wait g (.dropReceiver (some x))))
    (wait_returned : ∀ g outcome, motive (.wait g (.returned outcome)))
    (wait_dropped : ∀ g, motive (.wait g .dropped))
    (drop_cancel_load : ∀ g, motive (.drop g (.cancel .load)))
    (drop_cancel_exchange : ∀ g current, motive (.drop g (.cancel (.exchange current))))
    (drop_cancel_token : ∀ g, motive (.drop g (.cancel .token)))
    (drop_fields : ∀ g, motive (.drop g .fields))
    (drop_finished : ∀ g, motive (.drop g .finished))
    (supervise_unpolled : ∀ i g id site, motive (.supervise i g id site .unpolled))
    (supervise_join : ∀ i g id site, motive (.supervise i g id site .join))
    (supervise_finish_none : ∀ i g id result, motive (.supervise i g id none (.finish result)))
    (supervise_finish_some :
      ∀ i g id result x, motive (.supervise i g id (some x) (.finish result)))
    (supervise_cleanup_entry :
      ∀ i g id site x outcome, motive (.supervise i g id site (.cleanup x outcome .entry)))
    (supervise_cleanup_hasGeneration :
      ∀ i g id site x outcome, motive (.supervise i g id site (.cleanup x outcome .hasGeneration)))
    (supervise_cleanup_dropState_false :
      ∀ i g id site x outcome,
        motive (.supervise i g id site (.cleanup x outcome (.dropState false))))
    (supervise_cleanup_dropState_true :
      ∀ i g id site x outcome,
        motive (.supervise i g id site (.cleanup x outcome (.dropState true))))
    (supervise_cleanup_remove :
      ∀ i g id site x outcome, motive (.supervise i g id site (.cleanup x outcome .remove)))
    (supervise_cleanup_dropEntry :
      ∀ i g id site x outcome, motive (.supervise i g id site (.cleanup x outcome .dropEntry)))
    (supervise_publish :
      ∀ i g id site outcome cleanupPanicked,
        motive (.supervise i g id site (.publish outcome cleanupPanicked)))
    (supervise_removeLive : ∀ i g id site, motive (.supervise i g id site .removeLive))
    (supervise_finalize_lock :
      ∀ i g id site exit, motive (.supervise i g id site (.finalize exit .lock)))
    (supervise_finalize_remove :
      ∀ i g id site exit, motive (.supervise i g id site (.finalize exit .remove)))
    (supervise_finalize_accepting :
      ∀ i g id site exit, motive (.supervise i g id site (.finalize exit .accepting)))
    (supervise_finalize_isEmpty :
      ∀ i g id site exit, motive (.supervise i g id site (.finalize exit .isEmpty)))
    (supervise_finalize_storeTerminated :
      ∀ i g id site exit, motive (.supervise i g id site (.finalize exit .storeTerminated)))
    (supervise_finalize_dropSupervisor_false :
      ∀ i g id site exit, motive (.supervise i g id site (.finalize exit (.dropSupervisor false))))
    (supervise_finalize_dropSupervisor_true :
      ∀ i g id site exit, motive (.supervise i g id site (.finalize exit (.dropSupervisor true))))
    (supervise_finalize_notify :
      ∀ i g id site exit, motive (.supervise i g id site (.finalize exit .notify)))
    (supervise_dropSender : ∀ i g id site exit, motive (.supervise i g id site (.dropSender exit)))
    (supervise_ended : ∀ i g id site exit, motive (.supervise i g id site (.ended exit)))
    (p : Pc R K E) : motive p := by
  cases p using Pc.operations
  case' acquire q p => cases q, p using AcquirePc.points
  case' supervise i g id site p => cases site, p using SupervisePc.points
  case' cancel | shutdown | terminate_cancel | terminate_shutdown =>
    cases_type* Domain.ShutdownPc Domain.CancelPc Control.CancelPc
  all_goals apply_assumption

end Resourcery
