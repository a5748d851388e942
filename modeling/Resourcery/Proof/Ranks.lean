import Mathlib.Data.List.Count
import Resourcery.Proof.Reentry

/-!
# How far a thread is from its end

`Pc.rank` bounds the steps a thread takes by itself to its end, or to a point at which it awaits an
event that has not happened yet. Every step but a spurious failure of `compare_exchange_weak` brings
it down (`rank_run`); the loops of the program are paid for by what they iterate over.
-/

namespace Resourcery

open Interleaving Function Transition ResourceContext

variable {R K E : Type}

/-! ## Ranks -/

/-- The rank of `Control::cancel` while the control is in the phase `ph`. -/
def Control.CancelPc.rank (ph : Phase) : CancelPc → ℕ
  | .load => 4
  | .exchange current => if ph = current.1 then 2 else 3
  | .token => 1

namespace Domain

def TryAcquirePc.rank : TryAcquirePc → ℕ
  | .accepting => 4
  | .active => 3
  | .acceptingAgain => 2
  | .activeAgain => 1

def RegisterPc.rank : RegisterPc → ℕ
  | .accepting => 6
  | .lock => 5
  | .acceptingLocked => 4
  | .activate => 3
  | .insert => 2
  | .dropSupervisor _ => 1

def FinishedPc.rank : FinishedPc → ℕ
  | .lock => 7
  | .remove => 6
  | .accepting => 5
  | .isEmpty => 4
  | .storeTerminated => 3
  | .dropSupervisor _ => 2
  | .notify => 1

/-- The loop over the controls of `k` tasks costs `6 * k`. -/
def CancelPc.rank (m : Memory R K E) : CancelPc → ℕ
  | .lock => 6 * m.tasks.length + 9
  | .exchange => 6 * m.tasks.length + 8
  | .token => 6 * m.tasks.length + 7
  | .loadPhase => 6 * m.tasks.length + 6
  | .collect => 6 * m.tasks.length + 5
  | .storeTerminated => 4
  | .notify => 3
  | .dropSupervisor controls => 6 * controls.length + 2
  | .next controls => 6 * controls.length + 1
  | .control g controls p => 6 * controls.length + 1 + p.rank (m.control g)

/-- A waiter that has been notified looks at the phase once more. -/
def ShutdownPc.rank (m : Memory R K E) : ShutdownPc → ℕ
  | .cancel p => p.rank m + 2
  | .notified => 2
  | .loadPhase seen => if seen < m.quiescent then 4 else 1
  | .wait seen => if seen < m.quiescent then 3 else 0
  | .returned | .dropped => 0

def TerminatePc.rank (m : Memory R K E) : TerminatePc → ℕ
  | .cancel p => p.rank m + 8 * m.tasks.length + 15
  | .lock => 8 * m.tasks.length + 15
  | .collect => 8 * m.tasks.length + 14
  | .dropSupervisor aborts => 6 * m.tasks.length + 2 * aborts.length + 13
  | .abort aborts => 6 * m.tasks.length + 2 * aborts.length + 12
  | .abortOne _ aborts => 6 * m.tasks.length + 2 * aborts.length + 13
  | .shutdown p => p.rank m

end Domain

namespace Registry

/-- The rank of an acquisition of `i` that listens to the slot `n`: a listener that has been
notified claims again. -/
def listening (m : Memory R K E) (i : Ident R K) (n seen : ℕ) : ℕ :=
  if seen < m.changed i n then 39 else 0

/-- The rank of an acquisition that has been answered. -/
def RegistryClaim.rank (m : Memory R K E) (i : Ident R K) : RegistryClaim → ℕ
  | .owner _ _ => 26
  | .wait n seen => listening m i n seen
  | _ => 1

def ClaimPc.rank (m : Memory R K E) (i : Ident R K) : ClaimPc → ℕ
  | .entry => 38
  | .lockSlot _ => 37
  | .listen _ => 3
  | .upgrade .. => 36
  | .tryAcquire _ _ _ p => p.rank + 31
  | .dropResource .. => 31
  | .recheck .. => 30
  | .takeover .. => 29
  | .vacant => 29
  | .insert => 28
  | .dropState _ claim => claim.rank m i + 2
  | .dropEntry claim => claim.rank m i + 1
  | .dropFound _ => 1

def RemovePc.rank : RemovePc → ℕ
  | .entry => 5
  | .hasGeneration => 4
  | .dropState _ => 3
  | .remove => 2
  | .dropEntry => 1

end Registry

namespace ResourceContext

def StatusPc.rank : StatusPc → ℕ
  | .slot => 10
  | .lockSlot _ => 9
  | .upgrade .. => 8
  | .tryAcquire _ _ p => p.rank + 3
  | .dropEntry .. => 3
  | .dropState .. => 2
  | .deliver _ => 1
  | .returned _ | .panicked => 0

/-- The elements an iteration over `live` has not yielded yet. -/
def unseen (live seen : List (ℕ × GenId)) : List (ℕ × GenId) :=
  live.filter fun e => e.1 ∉ seen.map Prod.fst

def AllPc.rank (m : Memory R K E) (r : R) : AllPc → ℕ
  | .iter => 9 * (m.live r).length + 3
  | .collect _ snapshot => 9 * (unseen (m.live r) snapshot).length + 8 * snapshot.length + 2
  | .filter todo _ => 8 * todo.length + 1
  | .tryAcquire _ todo _ p => 8 * todo.length + (p.rank + 2)
  | .dropEntry _ todo _ => 8 * todo.length + 2
  | .returned _ => 0

def CreatePc.rank (m : Memory R K E) : CreatePc → ℕ
  | .accepting => 24
  | .build => 23
  | .newEntry => 22
  | .spawnTask _ => 21
  | .register _ p => p.rank + 14
  | .insertLive .. => 11
  | .spawnSupervisor .. => 10
  | .abort _ => 14
  | .cancel g p => p.rank (m.control g) + 9
  | .dropStart _ => 9
  | .dropEntry _ => 8
  | .dropSender _ => 7

def SettlePc.rank : SettlePc → ℕ
  | .accepting => 9
  | .lateStart => 8
  | .dropResource => 7
  | .lockState => 6
  | .storeActive => 5
  | .dropState => 4
  | .notify => 3
  | .start => 2

def GuardPc.rank : GuardPc → ℕ
  | .remove p => p.rank + 1
  | .notify => 1

def AcquirePc.rank (m : Memory R K E) (i : Ident R K) : AcquirePc → ℕ
  | .accepting => 39
  | .claim p => p.rank m i
  | .listener n seen => Registry.listening m i n seen
  | .cloneKey .. => 26
  | .cloneCleanupKey .. => 25
  | .create _ p => p.rank m
  | .settle _ _ _ p => p.rank
  | .guard _ _ _ p => p.rank
  | .start _ => 2
  | .deliver _ => 1
  | .returned _ => 0

def SupervisePc.rank : SupervisePc E → ℕ
  | .unpolled => 18
  | .join => 17
  | .finish _ => 16
  | .cleanup _ _ p => p.rank + 10
  | .publish .. => 10
  | .removeLive => 9
  | .finalize _ p => p.rank + 1
  | .dropSender _ => 1
  | .ended _ => 0

end ResourceContext

def WeakResourceRef.UpgradePc.rank : UpgradePc → ℕ
  | .entry => 7
  | .domain => 6
  | .tryAcquire p => p.rank + 1
  | .dropEntry | .deliver => 1
  | .returned _ => 0

/-- A receiver that has not seen the last value looks at it once more. -/
def ResourceCompletion.WaitPc.rank (m : Memory R K E) (g : GenId) : WaitPc E → ℕ
  | .borrow seen => if m.version g = seen then 3 else 5
  | .changed seen => if m.version g = seen then 2 else 4
  | .dropReceiver _ => 1
  | .returned _ | .dropped => 0

def Entry.DropPc.rank (ph : Phase) : DropPc → ℕ
  | .cancel p => p.rank ph + 1
  | .fields => 1
  | .finished => 0

/-- A bound for the steps the thread at this point takes by itself. -/
def Pc.rank (m : Memory R K E) : Pc R K E → ℕ
  | .idle | .cancelled => 0
  | .acquire q p => p.rank m q.ident
  | .discover _ _ p => p.rank
  | .all r p => p.rank m r
  | .upgrade _ p => p.rank
  | .cancel p => p.rank m
  | .shutdown p => p.rank m
  | .terminate p => p.rank m
  | .wait g p => p.rank m g
  | .drop g p => p.rank (m.control g)
  | .supervise _ _ _ _ p => p.rank

/-! ## Every step brings the rank down -/

/-- The thread is about to try the exchange of a `Control::cancel`. -/
def Pc.exchanges : Pc R K E → Bool
  | .acquire _ (.create _ (.cancel _ (.exchange _))) | .cancel (.control _ _ (.exchange _))
  | .shutdown (.cancel (.control _ _ (.exchange _)))
  | .terminate (.cancel (.control _ _ (.exchange _)))
  | .terminate (.shutdown (.cancel (.control _ _ (.exchange _))))
  | .drop _ (.cancel (.exchange _)) => true
  | _ => false

/-- From `p` in `m` a thread goes on at `p'` in `m'`: it is nearer to its end, or tries the same
exchange again. -/
def Nears (m : Memory R K E) (p : Pc R K E) (m' : Memory R K E) (p' : Pc R K E) : Prop :=
  p'.rank m' < p.rank m ∨ p.exchanges = true ∧ p' = p

variable {cfg : Config R K} {t u : Tid} {m m' : Memory R K E} {p p' : Pc R K E} {g : GenId}

theorem Nears.lt (h : p'.rank m' < p.rank m) : Nears m p m' p' := .inl h

theorem Nears.retry (h : p.exchanges = true) : Nears m p m p := .inr ⟨h, rfl⟩

theorem Control.CancelPc.rank_exchange_lt (ph : Phase) (current : CancellablePhase) :
    (CancelPc.exchange current).rank ph < 4 := by
  show (if ph = current.1 then 2 else 3) < 4
  split <;> decide

theorem Control.CancelPc.rank_pos (ph : Phase) (p : CancelPc) : 0 < p.rank ph := by
  cases p with
  | exchange current =>
    show 0 < if ph = current.1 then 2 else 3
    split <;> decide
  | load | token => exact Nat.succ_pos _

variable [DecidableEq R] [DecidableEq K]

/-- **Rule for `Control::cancel`.** A step brings its rank down, unless the exchange is tried
again. -/
theorem Control.wp_cancel_rank {α : Type} {Q : Memory R K E → α → Option α → Prop} {ret : α}
    {goto : Control.CancelPc → α} {p : Control.CancelPc}
    (hgoto : ∀ control cancels p', p'.rank (control g) < p.rank (m.control g) →
      Q { m with control := control, cancels := cancels } (goto p') none)
    (hretry : ∀ current, p = .exchange current → Q m (goto p) none)
    (hret : ∀ control cancels, Q { m with control := control, cancels := cancels } ret none) :
    (Control.cancel g goto ret p).wp cfg t m Q := by
  have again (ph : Phase) (hph : ph.Cancellable) (hlt : (CancelPc.exchange ⟨ph, hph⟩).rank
      (m.control g) < p.rank (m.control g)) : Q m (goto (.exchange ⟨ph, hph⟩)) none :=
    hgoto m.control m.cancels _ hlt
  cases p
  case load =>
    exact ⟨fun _ => again _ (.inl rfl) (CancelPc.rank_exchange_lt _ _),
      fun _ => again _ (.inr rfl) (CancelPc.rank_exchange_lt _ _),
      fun _ => hret m.control m.cancels, fun _ => hret m.control m.cancels⟩
  case exchange current =>
    -- a failed exchange is tried with the phase observed, which the control still has
    have failed (ph : Phase) (hph : ph.Cancellable) (h : m.control g = ph) :
        Q m (goto (.exchange ⟨ph, hph⟩)) none := by
      by_cases he : current = ⟨ph, hph⟩
      · rw [← he]
        exact hretry current rfl
      · refine again ph hph ?_
        have hne : m.control g ≠ current.1 := fun hc => he (Subtype.ext (hc.symm.trans h))
        simp only [CancelPc.rank, if_pos h, if_neg hne]
        decide
    refine ⟨fun _ => hgoto _ m.cancels .token ?_, fun h => failed _ (.inl rfl) h,
      fun h => failed _ (.inr rfl) h, fun _ => hret m.control m.cancels,
      fun _ => hret m.control m.cancels⟩
    show 1 < if m.control g = current.1 then 2 else 3
    split <;> decide
  case token => exact hret m.control _

theorem acquire_nears (q : Request R K) (p : AcquirePc) :
    (Pc.acquire q p : Pc R K E).code.wp cfg t m fun m' p' _ => Nears m (.acquire q p) m' p' := by
  cases q, p using AcquirePc.points
  case' claim_dropState claim => cases claim
  case create_cancel_load | create_cancel_exchange | create_cancel_token =>
    rw [Pc.code_createCancel]
    refine Control.wp_cancel_rank (fun _ _ _ hlt => .lt (Nat.add_lt_add_right hlt 9)) ?_
      fun _ _ => .lt (Nat.lt_add_of_pos_left (Control.CancelPc.rank_pos _ _))
    intro current h
    cases h <;> exact .retry rfl
  case guard_remove_entry =>
    refine ⟨.lt (Nat.le_of_ble_eq_true rfl), fun _ => ⟨fun _ _ => ?_,
      fun _ => .lt (Nat.le_of_ble_eq_true rfl)⟩⟩
    dsimp only
    split <;> exact .lt (Nat.le_of_ble_eq_true rfl)
  case listener n seen =>
    intro h
    refine .lt ?_
    show 38 < if seen < m.changed q.ident n then 39 else 0
    rw [if_pos h]
    decide
  case claim_listen =>
    refine .lt ?_
    show (if m.changed q.ident _ < m.changed q.ident _ then 39 else 0) + 2 < 3
    rw [if_neg (Nat.lt_irrefl _)]
    decide
  all_goals
    repeat' first
      | exact .lt (Nat.le_of_ble_eq_true rfl)
      | exact .lt (Nat.lt_succ_self _)
      | exact trivial
      | apply And.intro
      | intro _

theorem Domain.wp_cancel_rank {α : Type} {Q : Memory R K E → α → Option α → Prop}
    {goto : CancelPc → α} {ret : α} {p : CancelPc}
    (hgoto : ∀ m' p', m'.tasks = m.tasks → p'.rank m' < p.rank m → Q m' (goto p') none)
    (hretry : ∀ g controls current, p = .control g controls (.exchange current) →
      Q m (goto p) none)
    (hret : ∀ m', m'.tasks = m.tasks → Q m' ret none) : (cancel goto ret p).wp cfg t m Q := by
  cases p
  case lock => exact fun _ => hgoto _ _ rfl (Nat.lt_succ_self _)
  case exchange =>
    have hlt : 6 * m.tasks.length + 6 < 6 * m.tasks.length + 8 := by omega
    exact ⟨fun _ => hgoto _ _ rfl (Nat.lt_succ_self _), fun _ => hgoto _ _ rfl hlt⟩
  case token => exact hgoto _ _ rfl (Nat.lt_succ_self _)
  case loadPhase =>
    have hterm : 6 * 0 + 2 < 6 * m.tasks.length + 6 := by omega
    exact ⟨fun _ => hgoto _ _ rfl (Nat.lt_succ_self _), fun _ => hgoto _ _ rfl (Nat.lt_succ_self _),
      fun _ => hgoto _ _ rfl hterm⟩
  case collect =>
    refine ⟨fun _ => hgoto _ .storeTerminated rfl ?_, fun e es he => ?_⟩
    · show 4 < 6 * m.tasks.length + 5
      omega
    · refine hgoto _ (.dropSupervisor ((e :: es).map Prod.snd)) rfl ?_
      show 6 * ((e :: es).map Prod.snd).length + 2 < 6 * m.tasks.length + 5
      rw [he, List.length_map]
      omega
  case storeTerminated => exact hgoto _ _ rfl (Nat.lt_succ_self _)
  case notify => exact hgoto _ _ rfl (Nat.lt_succ_self _)
  case dropSupervisor => exact hgoto _ _ rfl (Nat.lt_succ_self _)
  case next controls =>
    refine ⟨fun _ => hret _ rfl, fun n g hn => hgoto _ (.control g _ .load) rfl ?_⟩
    have hlt : n < controls.length := (List.getElem?_eq_some_iff.mp hn).1
    show 6 * (controls.eraseIdx n).length + 1 + 4 < 6 * controls.length + 1
    rw [List.length_eraseIdx_of_lt hlt]
    omega
  case control g controls p =>
    refine Control.wp_cancel_rank (fun _ _ p' hlt => hgoto _ (.control g controls p') rfl
      (Nat.add_lt_add_left hlt _)) ?_ fun _ _ => hgoto _ (.next controls) rfl
      (Nat.lt_add_of_pos_right (Control.CancelPc.rank_pos _ _))
    rintro current rfl
    exact hretry g controls current rfl

omit [DecidableEq R] [DecidableEq K] in
theorem Domain.CancelPc.rank_pos (p : CancelPc) : 0 < p.rank m := by
  cases p with
  | control => exact Nat.lt_add_right _ (Nat.succ_pos _)
  | _ => exact Nat.succ_pos _

theorem Domain.wp_shutdown_rank {α : Type} {Q : Memory R K E → α → Option α → Prop}
    {goto : ShutdownPc → α} {p : ShutdownPc}
    (hgoto : ∀ m' p', p'.rank m' < p.rank m → Q m' (goto p') none)
    (hretry : ∀ g controls current, p = .cancel (.control g controls (.exchange current)) →
      Q m (goto p) none) : (shutdown goto p).wp cfg t m Q := by
  cases p
  case cancel p =>
    refine Domain.wp_cancel_rank (fun _ p' _ hlt => hgoto _ (.cancel p')
      (Nat.add_lt_add_right hlt 2)) ?_ fun _ _ => hgoto _ .notified
      (Nat.lt_add_of_pos_left (CancelPc.rank_pos p))
    rintro g controls current rfl
    exact hretry g controls current rfl
  case notified =>
    refine hgoto _ (.loadPhase m.quiescent) ?_
    show (if m.quiescent < m.quiescent then 4 else 1) < 2
    rw [if_neg (Nat.lt_irrefl _)]
    decide
  case loadPhase seen =>
    have hpos : 0 < if seen < m.quiescent then 4 else 1 := by split <;> decide
    have hwait : (if seen < m.quiescent then 3 else 0) < if seen < m.quiescent then 4 else 1 := by
      split <;> decide
    exact ⟨fun _ => hgoto _ (.wait seen) hwait, fun _ => hgoto _ (.wait seen) hwait,
      fun _ => hgoto _ .returned hpos⟩
  case wait seen =>
    intro h
    refine hgoto _ .notified ?_
    show 2 < if seen < m.quiescent then 3 else 0
    rw [if_pos h]
    decide
  case returned | dropped => trivial

theorem shutdown_nears (p : Domain.ShutdownPc) :
    (Pc.shutdown p : Pc R K E).code.wp cfg t m fun m' p' _ => Nears m (.shutdown p) m' p' := by
  refine Domain.wp_shutdown_rank (fun _ _ hlt => .lt hlt) ?_
  rintro g controls current rfl
  exact .retry rfl

theorem terminate_nears (p : Domain.TerminatePc) :
    (Pc.terminate p : Pc R K E).code.wp cfg t m fun m' p' _ => Nears m (.terminate p) m' p' := by
  cases p
  case cancel p =>
    rw [Pc.code_terminateCancel]
    refine Domain.wp_cancel_rank (fun m' p' hm hlt => .lt ?_) ?_ fun m' hm => .lt ?_
    · show p'.rank m' + 8 * m'.tasks.length + 15 < p.rank m + 8 * m.tasks.length + 15
      rw [hm]
      omega
    · rintro g controls current rfl
      exact .retry rfl
    · have := Domain.CancelPc.rank_pos (m := m) p
      show 8 * m'.tasks.length + 15 < p.rank m + 8 * m.tasks.length + 15
      rw [hm]
      omega
  case lock => exact fun _ => .lt (Nat.lt_succ_self _)
  case collect =>
    have hlt (es : List (ℕ × GenId)) (hes : m.tasks = es) :
        6 * m.tasks.length + 2 * (es.map Prod.snd).length + 13 < 8 * m.tasks.length + 14 := by
      rw [List.length_map, ← hes]
      omega
    exact ⟨fun h => .lt (hlt [] h), fun e es h => .lt (hlt (e :: es) h)⟩
  case dropSupervisor => exact .lt (Nat.lt_succ_self _)
  case abort aborts =>
    refine ⟨fun _ => .lt ?_, fun n g hn => .lt ?_⟩
    · show 6 * m.tasks.length + 9 + 2 < 6 * m.tasks.length + 2 * aborts.length + 12
      omega
    · have hlt : n < aborts.length := (List.getElem?_eq_some_iff.mp hn).1
      show 6 * m.tasks.length + 2 * (aborts.eraseIdx n).length + 13 <
        6 * m.tasks.length + 2 * aborts.length + 12
      rw [List.length_eraseIdx_of_lt hlt]
      omega
  case abortOne => exact .lt (Nat.lt_succ_self _)
  case shutdown p =>
    rw [Pc.code_terminateShutdown]
    refine Domain.wp_shutdown_rank (fun _ _ hlt => .lt hlt) ?_
    rintro g controls current rfl
    exact .retry rfl

theorem status_nears (q : Query) (i : Ident R K) (p : StatusPc) :
    (Pc.discover q i p : Pc R K E).code.wp cfg t m fun m' p' _ =>
      Nears m (.discover q i p) m' p' := by
  cases_type* StatusPc Domain.TryAcquirePc
  case' dropState x => cases x
  all_goals
    repeat' first
      | exact .lt (Nat.le_of_ble_eq_true rfl)
      | exact trivial
      | apply And.intro
      | intro _

theorem upgrade_nears (p : WeakResourceRef.UpgradePc) :
    (Pc.upgrade g p : Pc R K E).code.wp cfg t m fun m' p' _ => Nears m (.upgrade g p) m' p' := by
  cases_type* WeakResourceRef.UpgradePc Domain.TryAcquirePc
  all_goals
    repeat' first
      | exact .lt (Nat.le_of_ble_eq_true rfl)
      | exact trivial
      | apply And.intro
      | intro _

theorem supervise_nears (i : Ident R K) (id : ℕ) (site : Option Site) (p : SupervisePc E) :
    (Pc.supervise i g id site p).code.wp cfg t m fun m' p' _ =>
      Nears m (.supervise i g id site p) m' p' := by
  cases site, p using SupervisePc.points
  case cleanup_entry =>
    refine ⟨.lt (Nat.le_of_ble_eq_true rfl), fun _ => ⟨fun _ _ => ?_,
      fun _ => .lt (Nat.le_of_ble_eq_true rfl)⟩⟩
    dsimp only
    split <;> exact .lt (Nat.le_of_ble_eq_true rfl)
  all_goals
    repeat' first
      | exact .lt (Nat.le_of_ble_eq_true rfl)
      | exact trivial
      | apply And.intro
      | intro _

theorem wait_nears (p : ResourceCompletion.WaitPc E) :
    (Pc.wait g p : Pc R K E).code.wp cfg t m fun m' p' _ => Nears m (.wait g p) m' p' := by
  cases p
  case borrow seen =>
    have hpos : 1 < if m.version g = seen then 3 else 5 := by split <;> decide
    have hlt : (if m.version g = seen then 2 else 4) < if m.version g = seen then 3 else 5 := by
      split <;> decide
    exact ⟨fun _ => .lt hlt, fun _ _ => .lt hpos⟩
  case changed seen =>
    refine ⟨fun h => .lt ?_, fun h _ => .lt ?_⟩
    · show (if m.version g = m.version g then 3 else 5) < if m.version g = seen then 2 else 4
      rw [if_pos rfl, if_neg h]
      decide
    · show 1 < if m.version g = seen then 2 else 4
      rw [if_pos h]
      decide
  case dropReceiver result => cases result <;> exact .lt (Nat.le_of_ble_eq_true rfl)
  case returned | dropped => trivial

theorem drop_nears (p : Entry.DropPc) :
    (Pc.drop g p : Pc R K E).code.wp cfg t m fun m' p' _ => Nears m (.drop g p) m' p' := by
  cases p
  case cancel p =>
    refine Control.wp_cancel_rank (fun _ _ _ hlt => .lt (Nat.add_lt_add_right hlt 1)) ?_
      fun _ _ => .lt (Nat.lt_add_of_pos_left (Control.CancelPc.rank_pos _ _))
    rintro current rfl
    exact .retry rfl
  case fields => exact .lt (Nat.le_of_ble_eq_true rfl)
  case finished => trivial

theorem cancel_nears (p : Domain.CancelPc) :
    (Pc.cancel p : Pc R K E).code.wp cfg t m fun m' p' _ => Nears m (.cancel p) m' p' := by
  refine Domain.wp_cancel_rank (fun _ _ _ hlt => .lt hlt) ?_
    fun _ _ => .lt (Domain.CancelPc.rank_pos p)
  rintro g controls current rfl
  exact .retry rfl

omit [DecidableEq R] [DecidableEq K] in
/-- An element that is yielded is seen from then on. -/
theorem unseen_lt {live seen : List (ℕ × GenId)} {e : ℕ × GenId} (he : e ∈ live)
    (hs : e.1 ∉ seen.map Prod.fst) :
    (unseen live (seen ++ [e])).length < (unseen live seen).length := by
  have hsplit : unseen live (seen ++ [e]) = (unseen live seen).filter (·.1 ≠ e.1) := by
    unfold unseen
    rw [List.filter_filter]
    refine List.filter_congr fun x _ => ?_
    simp only [List.map_append, List.mem_append, List.map_cons, List.map_nil, List.mem_singleton,
      not_or, ne_eq, Bool.decide_and]
    rw [Bool.and_comm]
  rw [hsplit]
  refine List.length_filter_lt_length_iff_exists.mpr ⟨e, ?_, ?_⟩
  · exact List.mem_filter.mpr ⟨he, decide_eq_true hs⟩
  · simp

theorem all_nears (r : R) (p : AllPc) :
    (Pc.all r p : Pc R K E).code.wp cfg t m fun m' p' _ => Nears m (.all r p) m' p' := by
  cases_type* AllPc Domain.TryAcquirePc
  case' filter x _ => cases x
  case iter =>
    refine .lt ?_
    have hle : (unseen (m.live r) []).length ≤ (m.live r).length := List.length_filter_le _ _
    show 9 * (unseen (m.live r) []).length + 8 * 0 + 2 < 9 * (m.live r).length + 3
    omega
  case collect keys snapshot =>
    refine ⟨fun e he hs => .lt ?_, fun _ => .lt ?_⟩
    · have hlt := unseen_lt he hs
      show 9 * (unseen (m.live r) (snapshot ++ [e])).length + 8 * (snapshot ++ [e]).length + 2 <
        9 * (unseen (m.live r) snapshot).length + 8 * snapshot.length + 2
      rw [List.length_append, List.length_singleton]
      omega
    · show 8 * (snapshot.map Prod.snd).length + 1 <
        9 * (unseen (m.live r) snapshot).length + 8 * snapshot.length + 2
      rw [List.length_map]
      omega
  case filter.cons _ g todo =>
    have hlt (k : ℕ) (hk : k < 9) : 8 * todo.length + k < 8 * (g :: todo).length + 1 := by
      rw [List.length_cons]
      omega
    exact ⟨fun _ => .lt (hlt 6 (by decide)), fun _ => .lt (hlt 1 (by decide))⟩
  all_goals
    repeat' first
      | exact .lt (Nat.add_lt_add_left (Nat.le_of_ble_eq_true rfl) _)
      | exact .lt (Nat.le_of_ble_eq_true rfl)
      | exact trivial
      | apply And.intro
      | intro _

/-- **Ranks.** Every step brings a thread nearer to its end, or lets it try an exchange again. -/
theorem rank_run (p : Pc R K E) : p.code.wp cfg t m fun m' p' _ => Nears m p m' p' := by
  cases p with
  | idle | cancelled => trivial
  | acquire q p => exact acquire_nears q p
  | discover q i p => exact status_nears q i p
  | all r p => exact all_nears r p
  | upgrade g p => exact upgrade_nears p
  | cancel p => exact cancel_nears p
  | shutdown p => exact shutdown_nears p
  | terminate p => exact terminate_nears p
  | wait g p => exact wait_nears p
  | drop g p => exact drop_nears p
  | supervise i g id site p => exact supervise_nears i id site p

/-! ## An exchange that does not fail spuriously -/

omit [DecidableEq R] [DecidableEq K] in
theorem Control.cancelFrom_ne {α : Type} {goto : CancelPc → α} {ret : α} {ph : Phase}
    {current : CancellablePhase} (hinj : ∀ x, goto x = goto (.exchange current) →
      x = .exchange current) (hret : ret ≠ goto (.exchange current)) (hne : ph ≠ current.1) :
    cancelFrom goto ret ph ≠ goto (.exchange current) := by
  unfold cancelFrom
  split
  · intro h
    injection hinj _ h with h
    exact hne (congrArg Subtype.val h)
  · exact hret

/-- An exchange that does not fail spuriously succeeds, or has observed another phase. -/
theorem Control.exchange_moves {α : Type} {ch : Choice} {goto : CancelPc → α} {ret : α}
    {current : CancellablePhase} {mv : Move (Memory R K E) α}
    (hinj : ∀ x, goto x = goto (.exchange current) → x = .exchange current)
    (hret : ret ≠ goto (.exchange current)) (hc : ch ≠ .spurious)
    (he : execute cfg t ch m (cancel g goto ret (.exchange current)) = some mv) :
    mv.pc ≠ goto (.exchange current) := by
  simp only [cancel, execute] at he
  split_ifs at he with h
  · cases he
    intro hp
    cases hinj _ hp
  · cases he
    exact cancelFrom_ne hinj hret fun hp => h ⟨hp, hc⟩

theorem not_retry {ch : Choice} {mv : Move (Memory R K E) (Pc R K E)}
    (he : execute cfg t ch m p.code = some mv) (hc : ch ≠ .spurious) :
    ¬ (p.exchanges = true ∧ mv.pc = p) := by
  rintro ⟨hx, hp⟩
  have exchanges (g : GenId) (goto : Control.CancelPc → Pc R K E) (ret : Pc R K E)
      (current : CancellablePhase) (hcode : p.code = Control.cancel g goto ret (.exchange current))
      (hgoto : p = goto (.exchange current))
      (hinj : ∀ x, goto x = goto (.exchange current) → x = .exchange current)
      (hret : ret ≠ goto (.exchange current)) : False := by
    rw [hcode] at he
    exact Control.exchange_moves hinj hret hc he (hp.trans hgoto)
  unfold Pc.exchanges at hx
  split at hx
  case h_1 q site g current =>
    exact exchanges g (fun x => .acquire q (.create site (.cancel g x)))
      (.acquire q (.create site (.dropStart g))) current rfl rfl (fun _ h => by cases h; rfl)
      fun h => by cases h
  case h_2 g controls current =>
    exact exchanges g (fun x => .cancel (.control g controls x)) (.cancel (.next controls)) current
      rfl rfl (fun _ h => by cases h; rfl) fun h => by cases h
  case h_3 g controls current =>
    exact exchanges g (fun x => .shutdown (.cancel (.control g controls x)))
      (.shutdown (.cancel (.next controls))) current rfl rfl (fun _ h => by cases h; rfl)
      fun h => by cases h
  case h_4 g controls current =>
    exact exchanges g (fun x => .terminate (.cancel (.control g controls x)))
      (.terminate (.cancel (.next controls))) current rfl rfl (fun _ h => by cases h; rfl)
      fun h => by cases h
  case h_5 g controls current =>
    exact exchanges g (fun x => .terminate (.shutdown (.cancel (.control g controls x))))
      (.terminate (.shutdown (.cancel (.next controls)))) current rfl rfl
      (fun _ h => by cases h; rfl) fun h => by cases h
  case h_6 g current =>
    exact exchanges g (fun x => .drop g (.cancel x)) (.drop g .fields) current rfl rfl
      (fun _ h => by cases h; rfl) fun h => by cases h
  case h_7 => cases hx

/-- **A step that does not fail spuriously** brings the rank down. -/
theorem rank_lt {ch : Choice} {mv : Move (Memory R K E) (Pc R K E)}
    (he : execute cfg t ch m p.code = some mv) (hc : ch ≠ .spurious) :
    mv.pc.rank mv.mem < p.rank m :=
  ((rank_run p).sound he).resolve_right (not_retry he hc)

end Resourcery
