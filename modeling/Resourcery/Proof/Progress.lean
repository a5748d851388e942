import Resourcery.Proof.Accounting
import Resourcery.Proof.Outcomes
import Resourcery.Proof.Reclamation
import Resourcery.Proof.Solo
import Resourcery.Proof.Waiters

/-!
# Progress

No operation of a domain is ever stuck: from every reachable state the threads alone can bring any
one of them to its end, or to the event it is there to wait for. Locks come first, since a holder
of a slot's lock waits for nothing and a holder of another lock at most for a slot's; then those to
whom a notification is owed.
-/

namespace Resourcery

open Interleaving Function Transition ResourceContext

variable {R K E : Type}

/-! ## Locks -/

/-- The thread holds a lock. -/
def Pc.locks (p : Pc R K E) : Bool := p.supervises || p.shard?.isSome || p.slot?.isSome

/-- No thread holds a lock. -/
def State.Unlocked (s : State R K E) : Prop := ∀ u, (s.pc u).locks = false

/-! ## Who owes another thread something, and where threads rest -/

/-- The acquisition constructs a generation, or has been answered by one it has constructed. -/
def ResourceContext.AcquirePc.granted : AcquirePc → Bool
  | .accepting | .listener .. => false
  | .claim p => p.owner?.isSome
  | _ => true

namespace Pc

@[inherit_doc ResourceContext.AcquirePc.granted]
def granted : Pc R K E → Bool
  | .acquire _ p => p.granted
  | _ => false

/-- Others may wait for the thread: it constructs a generation, or is about to announce that the
domain has terminated. -/
def indebted (p : Pc R K E) : Bool := p.granted && !p.code.halts || p.notifies

/-- The thread has ended, or waits for what is not up to the other threads: that the domain
terminates, that a generation has an outcome, that a task ends. -/
def Rests (m : Memory R K E) : Pc R K E → Prop
  | .shutdown (.wait _) | .terminate (.shutdown (.wait _)) => m.phase ≠ .terminated
  | .wait g (.changed _) => m.outcome g = none ∧ m.closed g = false
  | .supervise _ g _ _ .join => (m.task g).hasEnded = false
  | p => p.code.halts = true

end Pc

variable {cfg : Config R K} {t u : Tid} {m m' : Memory R K E} {p p' : Pc R K E} {g : GenId}
  {s s' : State R K E}

theorem Pc.slot?_of_locks (h : p.locks = false) : p.slot? = none := by
  unfold Pc.locks at h
  exact Option.not_isSome_iff_eq_none.mp (Bool.eq_false_iff.mp (Bool.or_eq_false_iff.mp h).2)

theorem locks_of_bystands (h : p.bystands = true) : p.locks = false := by
  unfold Pc.bystands at h
  split at h
  · rfl
  · rfl
  · cases h

/-- What a thread awaits it awaits without a lock. -/
theorem locks_of_awaits : ∀ m : Memory R K E, p.code.Awaits m → p.locks = false := by
  cases p using Pc.points
  all_goals first
    | exact fun _ _ => rfl
    | exact fun _ h => h.elim

/-- A thread that is blocked holds no slot's lock; it is blocked on one, or holds no lock at all. -/
def Pc.BlockedOn (m : Memory R K E) (p : Pc R K E) : Prop :=
  p.slot? = none ∧ ((∃ i n, m.slotLock i n ≠ none) ∨
    p.locks = false ∧ (m.supervisor ≠ none ∨ ∃ r k, m.shard r k ≠ none))

theorem blocked_cases : ∀ (cfg : Config R K) (m : Memory R K E), p.code.Blocked cfg m →
    p.BlockedOn m := by
  cases p using Pc.points
  all_goals intro cfg m h; first
    | exact h.elim
    | exact ⟨rfl, .inl ⟨_, _, h⟩⟩
    | exact ⟨rfl, .inr ⟨rfl, .inl h⟩⟩
    | exact ⟨rfl, .inr ⟨rfl, .inr ⟨_, _, h⟩⟩⟩

theorem indebted_of_awaits : ∀ m : Memory R K E, p.code.Awaits m → p.indebted = false := by
  cases p using Pc.points
  all_goals first
    | exact fun _ _ => rfl
    | exact fun _ h => h.elim

theorem indebted_of_bystands (h : p.bystands = true) : p.indebted = false := by
  unfold Pc.bystands at h
  split at h
  · rfl
  · rfl
  · cases h

theorem indebted_of_notifies {x : Ident R K × ℕ} (h : p.notifies? = some x) :
    p.indebted = true := by
  cases p using Pc.points
  case' acquire_claim_dropState claim => cases claim
  all_goals first
    | exact rfl
    | cases h

/-- **Where a thread awaits an event** it rests, listens to a slot, or has missed the announcement
that its domain has terminated. -/
theorem rests_cases (ha : p.code.Awaits m) (hp : p.Watches m) (hc : m.Channels) :
    p.Rests m ∨ (∃ q n seen, p = .acquire q (.listener n seen) ∧ m.changed q.ident n ≤ seen) ∨
      ∃ seen, p.awaitsQuiescence = some seen ∧ m.quiescent ≤ seen ∧ m.phase = .terminated := by
  have announced {seen : ℕ} (hw : p.awaitsQuiescence = some seen) (hle : m.quiescent ≤ seen) :
      m.phase ≠ .terminated ∨
        ∃ seen, p.awaitsQuiescence = some seen ∧ m.quiescent ≤ seen ∧ m.phase = .terminated := by
    by_cases ht : m.phase = .terminated
    · exact .inr ⟨seen, hw, hle, ht⟩
    · exact .inl ht
  revert ha hp announced
  cases p using Pc.points
  case acquire_listener q n seen => exact fun ha _ _ => .inr (.inl ⟨q, n, seen, rfl, ha⟩)
  case shutdown_wait | terminate_shutdown_wait =>
    exact fun ha _ announced => (announced rfl ha).imp_right .inr
  case supervise_join => exact fun ha _ _ => .inl ha
  case wait_changed g seen =>
    rintro ⟨hv, hcl⟩ hseen -
    refine .inl ⟨by_contra fun ho => ?_, hcl⟩
    exact nomatch (hc.full g ho).symm.trans (hv.trans hseen)
  all_goals first
    | exact fun _ _ _ => .inl rfl
    | exact fun ha _ _ => ha.elim

variable [DecidableEq R] [DecidableEq K]

/-- What holds up a blocked thread: another one that holds a lock, of a slot if the blocked one
holds any lock itself. -/
theorem blocker_of_reach {ok : State R K E → Action R K E → Prop}
    (hs : Reach (step cfg) ok State.new s) (hb : (s.pc t).code.Blocked cfg s.mem) :
    (s.pc t).slot? = none ∧ ∃ u, u ≠ t ∧
      ((s.pc u).slot? ≠ none ∨ (s.pc t).locks = false ∧ (s.pc u).locks = true) := by
  obtain ⟨hslot, ⟨i, n, hn⟩ | ⟨hfree, hn⟩⟩ := blocked_cases cfg s.mem hb
  · obtain ⟨u, hu⟩ := Option.ne_none_iff_exists'.mp hn
    have hheld : (s.pc u).slot? ≠ none := by
      rw [(honest_of_reach hs u).1 i n hu]
      exact Option.some_ne_none _
    refine ⟨hslot, u, ?_, .inl hheld⟩
    rintro rfl
    exact hheld hslot
  · have hheld : ∃ u, (s.pc u).locks = true := by
      rcases hn with hn | ⟨r, k, hn⟩
      · obtain ⟨u, hu⟩ := supervised_of_reach hs hn
        exact ⟨u, by rw [Pc.locks, hu]; rfl⟩
      · obtain ⟨u, hu⟩ := Option.ne_none_iff_exists'.mp hn
        obtain ⟨i, hi, -⟩ := (honest_of_reach hs u).2 r k hu
        exact ⟨u, by rw [Pc.locks, hi, Option.isSome_some, Bool.or_true, Bool.true_or]⟩
    obtain ⟨u, hu⟩ := hheld
    refine ⟨hslot, u, ?_, .inr ⟨hfree, hu⟩⟩
    rintro rfl
    rw [hfree] at hu
    cases hu

section

variable (hs : Reach (step cfg) (fun _ a => a.KeysSound) State.new s)

include hs

/-- **Threads run one after another.** When every thread that counts can run until it no longer
does, all of them can. -/
theorem runs_out {f : Pc R K E → Bool} {I : State R K E → Prop} (hidle : f .idle = false)
    (hby : ∀ p, p.bystands = true → f p = false)
    (hrun : ∀ v u, Reach (step cfg) (fun _ a => a.KeysSound) State.new v → I v → u < v.size →
      f (v.pc u) = true → ∃ v', Runs cfg u v v' ∧ I v' ∧ f (v'.pc u) = false) (hI : I s) :
    ∃ s', Moves cfg s s' ∧ I s' ∧ ∀ u, f (s'.pc u) = false := by
  have hstep (v : State R K E) (hI : Moves cfg s v ∧ I v) (hG : ¬ ∀ u, f (v.pc u) = false) :
      ∃ v', Moves cfg v v' ∧ (Moves cfg s v' ∧ I v') ∧
        v'.total (fun p => (f p).toNat) < v.total fun p => (f p).toNat := by
    obtain ⟨u, hu⟩ := not_forall.mp hG
    have hv := keysSound_of_moves hs hI.1
    have hu := eq_true_of_ne_false hu
    have hlt : u < v.size :=
      lt_size_of_ne_idle (fresh_of_reach hv) fun e => by rw [e, hidle] at hu; cases hu
    obtain ⟨v', hr, hI', hu'⟩ := hrun v u hv hI.2 hlt hu
    have htotal := total_of_runs hv (f := fun p => (f p).toNat) hr (congrArg Bool.toNat hidle)
      (fun p hp => congrArg Bool.toNat (hby p hp)) hlt
    refine ⟨v', hr.moves, ⟨hI.1.trans hr.moves, hI'⟩, ?_⟩
    rw [hu, hu', Bool.toNat_true, Bool.toNat_false] at htotal
    exact htotal
  obtain ⟨s', -, ⟨hr, hI⟩, hG⟩ := Reach.descend
    (fun v : State R K E => v.total fun p => (f p).toNat) hstep ⟨.refl, hI⟩
  exact ⟨s', hr, hI, hG⟩

/-- A thread that holds the lock of a slot is never blocked. -/
theorem releases_slot (ht : t < s.size) :
    ∃ s', Runs cfg t s s' ∧ (s'.pc t).slot? = none := by
  refine run_until hs (G := fun _ p => p.slot? = none) ht fun v hv hG => ?_
  refine ⟨fun ha => ?_, fun hb => ?_⟩
  · exact hG (Pc.slot?_of_locks (locks_of_awaits _ ha))
  · exact hG (blocker_of_reach (keysSound_of_moves hs hv.moves) hb).1

/-- **All locks can be released.** -/
theorem unlocks : ∃ s', Moves cfg s s' ∧ s'.Unlocked := by
  have hslots : ∃ v, Moves cfg s v ∧ ∀ u, (v.pc u).slot?.isSome = false := by
    obtain ⟨v, hv, -, hG⟩ := runs_out hs (f := fun p => p.slot?.isSome) (I := fun _ => True) rfl
      (fun p hp => congrArg Option.isSome (Pc.slot?_of_locks (locks_of_bystands hp)))
      (fun v u hv _ hu _ => by
        obtain ⟨v', hr, hG⟩ := releases_slot hv hu
        exact ⟨v', hr, trivial, congrArg Option.isSome hG⟩) trivial
    exact ⟨v, hv, hG⟩
  obtain ⟨v, hv, hslots⟩ := hslots
  -- with no slot locked, a holder of another lock is not blocked either
  have hrun (w : State R K E) (u : Tid) (hw : Reach (step cfg) (fun _ a => a.KeysSound) State.new w)
      (hfree : ∀ x, (w.pc x).slot? = none) (hu : u < w.size) (_ : (w.pc u).locks = true) :
      ∃ w', Runs cfg u w w' ∧ (∀ x, (w'.pc x).slot? = none) ∧ (w'.pc u).locks = false := by
    have others {w' : State R K E} (hr : Runs cfg u w w') {x : Tid} (hx : x ≠ u) :
        (w'.pc x).slot? = none := by
      rcases hr.aside x hx with he | hb
      · exact he ▸ hfree x
      · exact Pc.slot?_of_locks (locks_of_bystands hb)
    have hgo (x : State R K E) (hx : Runs cfg u w x) (hG : ¬ (x.pc u).locks = false) :
        ¬ (x.pc u).code.Awaits x.mem ∧ ¬ (x.pc u).code.Blocked cfg x.mem := by
      refine ⟨fun ha => hG (locks_of_awaits _ ha), fun hb => ?_⟩
      obtain ⟨-, y, hy, hheld | ⟨hfree', -⟩⟩ := blocker_of_reach (keysSound_of_moves hw hx.moves) hb
      · exact hheld (others hx hy)
      · exact hG hfree'
    obtain ⟨w', hr, hG⟩ := run_until hw (G := fun _ p => p.locks = false) hu hgo
    refine ⟨w', hr, fun x => ?_, hG⟩
    by_cases hxu : x = u
    · exact hxu ▸ Pc.slot?_of_locks hG
    · exact others hr hxu
  obtain ⟨s', hs', -, hfree⟩ := runs_out (keysSound_of_moves hs hv) (f := Pc.locks)
    (I := fun s => ∀ u, (s.pc u).slot? = none) rfl (fun _ => locks_of_bystands) hrun
    fun u => Option.not_isSome_iff_eq_none.mp (Bool.eq_false_iff.mp (hslots u))
  exact ⟨s', hv.trans hs', hfree⟩

/-- **While nobody holds a lock** a thread can run until it has ended or awaits an event. -/
theorem rests (hfree : s.Unlocked) (ht : t < s.size) :
    ∃ s', Runs cfg t s s' ∧ s'.Unlocked ∧ (s'.pc t).code.Awaits s'.mem := by
  have others {v : State R K E} (hr : Runs cfg t s v) {u : Tid} (hu : u ≠ t) :
      (v.pc u).locks = false := by
    rcases hr.aside u hu with he | hb
    · exact he ▸ hfree u
    · exact locks_of_bystands hb
  have hgo (v : State R K E) (hv : Runs cfg t s v) (hG : ¬ (v.pc t).code.Awaits v.mem) :
      ¬ (v.pc t).code.Awaits v.mem ∧ ¬ (v.pc t).code.Blocked cfg v.mem := by
    refine ⟨hG, fun hb => ?_⟩
    obtain ⟨-, u, hu, hheld | ⟨-, hheld⟩⟩ := blocker_of_reach (keysSound_of_moves hs hv.moves) hb
    · exact hheld (Pc.slot?_of_locks (others hv hu))
    · exact nomatch (others hv hu).symm.trans hheld
  obtain ⟨s', hr, hG⟩ := run_until hs (G := fun m p => p.code.Awaits m) ht hgo
  refine ⟨s', hr, fun u => ?_, hG⟩
  by_cases hu : u = t
  · exact hu ▸ locks_of_awaits _ hG
  · exact others hr hu

/-- Whoever owes another thread something can pay. -/
theorem pays : ∃ s', Moves cfg s s' ∧ s'.Unlocked ∧ ∀ u, (s'.pc u).indebted = false := by
  obtain ⟨v, hv, hfree⟩ := unlocks hs
  have hrun (w : State R K E) (u : Tid) (hw : Reach (step cfg) (fun _ a => a.KeysSound) State.new w)
      (hfree : w.Unlocked) (hu : u < w.size) (_ : (w.pc u).indebted = true) :
      ∃ w', Runs cfg u w w' ∧ w'.Unlocked ∧ (w'.pc u).indebted = false := by
    obtain ⟨w', hr, hfree', ha⟩ := rests hw hfree hu
    exact ⟨w', hr, hfree', indebted_of_awaits _ ha⟩
  obtain ⟨s', hs', hG⟩ := runs_out (keysSound_of_moves hs hv) (f := Pc.indebted)
    (I := State.Unlocked) rfl (fun _ => indebted_of_bystands) hrun hfree
  exact ⟨s', hv.trans hs', hG⟩

/-- A thread that awaits an event rests, or some thread owes it that event. -/
theorem rests_or_owed (ha : (s.pc t).code.Awaits s.mem) :
    (s.pc t).Rests s.mem ∨ ∃ u, (s.pc u).indebted = true := by
  rcases rests_cases ha (watches_of_reach hs t) (channels_of_reach hs).1 with
    hr | ⟨q, n, seen, hp, hle⟩ | ⟨seen, hp, hle, hterm⟩
  · exact .inl hr
  · have hserved : Served s q.ident n seen :=
      served_of_reach (fun _ _ h => h) hs t (by rw [hp]; rfl)
    obtain ⟨u, hu⟩ := hserved.2 (Nat.le_antisymm hserved.1 hle)
    exact .inr ⟨u, indebted_of_notifies hu⟩
  · rcases announced_of_reach hs hterm with hq | ⟨u, hu⟩
    · exact absurd (notified_of_reach hs hq hp) (Nat.not_lt.mpr hle)
    · exact .inr ⟨u, by rw [Pc.indebted, hu, Bool.or_true]⟩

/-- **When nobody owes anything** a thread can run to where it rests. -/
theorem rests_of_paid (hfree : s.Unlocked) (hpaid : ∀ u, (s.pc u).indebted = false) (t : Tid) :
    ∃ s', Runs cfg t s s' ∧ s'.Unlocked ∧ (∀ u, (s'.pc u).indebted = false) ∧
      (s'.pc t).Rests s'.mem := by
  by_cases ht : t < s.size
  · obtain ⟨s', hr, hfree', ha⟩ := rests hs hfree ht
    have hpaid' (u : Tid) : (s'.pc u).indebted = false := by
      by_cases hu : u = t
      · exact hu ▸ indebted_of_awaits _ ha
      · rcases hr.aside u hu with he | hb
        · exact he ▸ hpaid u
        · exact indebted_of_bystands hb
    refine ⟨s', hr, hfree', hpaid', ?_⟩
    refine (rests_or_owed (keysSound_of_moves hs hr.moves) ha).resolve_right ?_
    exact fun ⟨u, hu⟩ => nomatch (hpaid' u).symm.trans hu
  · refine ⟨s, .refl t s, hfree, hpaid, ?_⟩
    rw [fresh_of_reach hs t (Nat.le_of_not_lt ht)]
    exact rfl

end

/-- Two calls of `get_or_spawn`, of which one holds the lock of the shard and the other needs it. -/
def contendedRun : List (Action Unit Unit Unit) :=
  .call (.acquire ⟨.getOrSpawn, ⟨(), ()⟩⟩) :: List.replicate 2 (.run 0 .go) ++
    [.call (.acquire ⟨.getOrSpawn, ⟨(), ()⟩⟩), .run 1 .go]

end Resourcery
