import Resourcery.Proof.Sites
import Resourcery.Proof.Supervision

/-!
# Cancellation is a barrier

When a call of `Domain::cancel` returns, no control of the domain is active, and none becomes active
again: under the supervisor lock the call sees every active control in the table, and its loop
leaves none of them active. What is begun from then on fails, and so does every construction that
had not been registered when the domain stopped accepting.
-/

namespace Resourcery

open Interleaving Function Transition ResourceContext

variable {R K E : Type}

/-! ## The loop over the controls -/

/-- The controls that are active are among those of `gs`. -/
def Memory.ActiveIn (m : Memory R K E) (gs : List GenId) : Prop :=
  ∀ g, m.control g = .active → g ∈ gs

namespace Domain

/-- The controls that are active are among those the loop has not dealt with. -/
def CancelPc.Remains (m : Memory R K E) : CancelPc → Prop
  | .lock | .exchange | .token | .loadPhase | .collect => True
  | .storeTerminated | .notify => m.ActiveIn []
  | .dropSupervisor gs | .next gs | .control _ gs .token => m.ActiveIn gs
  | .control g gs _ => m.ActiveIn (g :: gs)

@[inherit_doc CancelPc.Remains]
def ShutdownPc.Remains (m : Memory R K E) : ShutdownPc → Prop
  | .cancel p => p.Remains m
  | _ => m.ActiveIn []

@[inherit_doc CancelPc.Remains]
def TerminatePc.Remains (m : Memory R K E) : TerminatePc → Prop
  | .cancel p => p.Remains m
  | .shutdown p => p.Remains m
  | _ => m.ActiveIn []

end Domain

@[inherit_doc Domain.CancelPc.Remains]
def Pc.Remains (m : Memory R K E) : Pc R K E → Prop
  | .cancel p => p.Remains m
  | .cancelled => m.ActiveIn []
  | .shutdown p => p.Remains m
  | .terminate p => p.Remains m
  | _ => True

variable {cfg : Config R K} {t : Tid} {m m' : Memory R K E} {p : Pc R K E} {g : GenId}
  {gs : List GenId}

theorem Memory.ActiveIn.mono (h : m.ActiveIn gs)
    (ha : ∀ g, m'.control g = .active → m.control g = .active) : m'.ActiveIn gs :=
  fun g hg => h g (ha g hg)

theorem Memory.ActiveIn.tail (h : m.ActiveIn (g :: gs)) (hg : m.control g ≠ .active) :
    m.ActiveIn gs :=
  fun x hx => (List.mem_cons.mp (h x hx)).resolve_left fun e => hg (e ▸ hx)

theorem Memory.ActiveIn.pick {n : ℕ} (h : m.ActiveIn gs) (hn : gs[n]? = some g) :
    m.ActiveIn (g :: gs.eraseIdx n) := by
  intro x hx
  obtain ⟨k, hk⟩ := List.mem_iff_getElem?.mp (h x hx)
  by_cases hkn : k = n
  · subst hkn
    rw [hk] at hn
    cases hn
    exact List.mem_cons_self
  · exact List.mem_cons_of_mem _ (List.mem_eraseIdx_iff_getElem?.mpr ⟨k, hkn, hk⟩)

section Stable

variable (ha : ∀ g, m'.control g = .active → m.control g = .active)
include ha

theorem Domain.CancelPc.Remains.mono {p : CancelPc} (h : p.Remains m) : p.Remains m' := by
  cases_type* CancelPc Control.CancelPc
  case lock | exchange | token | loadPhase | collect => trivial
  all_goals exact Memory.ActiveIn.mono h ha

theorem Domain.ShutdownPc.Remains.mono {p : ShutdownPc} (h : p.Remains m) : p.Remains m' := by
  cases p
  case cancel p => exact CancelPc.Remains.mono ha h
  all_goals exact Memory.ActiveIn.mono h ha

theorem Pc.Remains.mono (h : p.Remains m) : p.Remains m' := by
  cases p
  case cancel p => exact Domain.CancelPc.Remains.mono ha h
  case cancelled => exact Memory.ActiveIn.mono h ha
  case shutdown p => exact Domain.ShutdownPc.Remains.mono ha h
  case terminate p =>
    cases p
    case cancel p => exact Domain.CancelPc.Remains.mono ha h
    case shutdown p => exact Domain.ShutdownPc.Remains.mono ha h
    all_goals exact Memory.ActiveIn.mono h ha
  all_goals trivial

omit ha in
/-- While the domain accepts, nothing is known yet. -/
theorem Pc.Remains.of_accepting (hp : p.Past m) (hacc : m.Accepting) : p.Remains m' := by
  have stopped (h : m.Stopped) : False := h.1 hacc
  have cancel {p : Domain.CancelPc} (hp : p.Past m) : p.Remains m' := by
    cases p
    case lock | exchange | token => trivial
    case notify => exact (stopped hp.1).elim
    all_goals exact (stopped hp).elim
  have shutdown {p : Domain.ShutdownPc} (hp : p.Past m) : p.Remains m' := by
    cases p
    case cancel p => exact cancel hp
    case notified | dropped => exact (stopped hp).elim
    all_goals exact (stopped hp.1).elim
  cases p
  case cancel p => exact cancel hp
  case cancelled => exact (stopped hp).elim
  case shutdown p => exact shutdown hp
  case terminate p =>
    cases p
    case cancel p => exact cancel hp
    case shutdown p => exact shutdown hp
    all_goals exact (stopped hp).elim
  all_goals trivial

end Stable

variable [DecidableEq R] [DecidableEq K]

section Operations

variable {α : Type} {Q : Memory R K E → α → Option α → Prop} {ret : α}

theorem Domain.wp_control_remains {goto : CancelPc → α} {p : Control.CancelPc}
    (hp : (CancelPc.control g gs p).Remains m)
    (hgoto : ∀ m' p', p'.Remains m' → Q m' (goto p') none) :
    (Control.cancel g (fun p => goto (.control g gs p)) (goto (.next gs)) p).wp cfg t m Q := by
  have next (hp : m.ActiveIn (g :: gs)) {ph : Phase} (hg : m.control g = ph) (hph : ph ≠ .active) :
      Q m (goto (.next gs)) none :=
    hgoto m (.next gs) (Memory.ActiveIn.tail hp fun e => hph (hg.symm.trans e))
  cases p
  case load =>
    exact ⟨fun _ => hgoto m (.control g gs (.exchange _)) hp,
      fun _ => hgoto m (.control g gs (.exchange _)) hp,
      fun h => next hp h (by decide), fun h => next hp h (by decide)⟩
  case exchange current =>
    refine ⟨fun _ => hgoto _ (.control g gs .token) fun x hx => ?_,
      fun _ => hgoto m (.control g gs (.exchange _)) hp,
      fun _ => hgoto m (.control g gs (.exchange _)) hp,
      fun h => next hp h (by decide), fun h => next hp h (by decide)⟩
    have hx' : update m.control g .cancelling x = .active := hx
    by_cases hxg : x = g
    · rw [hxg, update_self] at hx'
      cases hx'
    · rw [update_of_ne hxg] at hx'
      exact (List.mem_cons.mp (hp x hx')).resolve_left hxg
  case token => exact hgoto _ (.next gs) hp

theorem Domain.wp_cancel_remains {goto : CancelPc → α} {p : CancelPc} (hp : p.Remains m)
    (ha : p.Agrees m) (hin : p.locked = true → m.ActiveIn (m.tasks.map Prod.snd))
    (hgoto : ∀ m' p', p'.Remains m' → Q m' (goto p') none)
    (hret : ∀ m', m'.ActiveIn [] → Q m' ret none) : (cancel goto ret p).wp cfg t m Q := by
  have nil (h : m.tasks = []) (hl : p.locked = true) : m.ActiveIn [] := by
    have := hin hl
    rw [h] at this
    exact this
  cases p
  case lock => exact fun _ => hgoto _ _ trivial
  case exchange => exact ⟨fun _ => hgoto _ _ trivial, fun _ => hgoto _ _ trivial⟩
  case token => exact hgoto _ _ trivial
  case loadPhase =>
    exact ⟨fun _ => hgoto _ _ trivial, fun _ => hgoto _ _ trivial,
      fun h => hgoto _ _ (nil (ha.2.2 h) rfl)⟩
  case collect =>
    refine ⟨fun h => hgoto _ _ (nil h rfl), fun e es h => hgoto _ _ ?_⟩
    have := hin rfl
    rw [h] at this
    exact this
  case storeTerminated => exact hgoto _ _ hp
  case notify => exact hgoto _ _ hp
  case dropSupervisor => exact hgoto _ _ hp
  case next gs =>
    refine ⟨fun h => hret _ (h ▸ hp), fun n g hn => hgoto _ _ (Memory.ActiveIn.pick hp hn)⟩
  case control g rest p => exact wp_control_remains hp hgoto

theorem Domain.wp_shutdown_remains {goto : ShutdownPc → α} {p : ShutdownPc} (hp : p.Remains m)
    (ha : p.Agrees m) (hin : p.locked = true → m.ActiveIn (m.tasks.map Prod.snd))
    (hgoto : ∀ m' p', p'.Remains m' → Q m' (goto p') none) :
    (shutdown goto p).wp cfg t m Q := by
  cases p
  case cancel p =>
    exact wp_cancel_remains hp ha hin (fun m' p' => hgoto m' (.cancel p'))
      fun m' => hgoto m' .notified
  case notified => exact hgoto _ _ hp
  case loadPhase => exact ⟨fun _ => hgoto _ _ hp, fun _ => hgoto _ _ hp, fun _ => hgoto _ _ hp⟩
  case wait => exact fun _ => hgoto _ _ hp
  all_goals trivial

end Operations

theorem remains_run (hp : p.Remains m) (ha : p.Agrees m)
    (hin : p.supervises = true → (∀ g, p.activating g = 0) → m.ActiveIn (m.tasks.map Prod.snd)) :
    p.code.wp cfg t m fun m' p' c => p'.Remains m' ∧ ForSome (Pc.Remains m') c := by
  cases p using Pc.operations
  case' acquire q p => cases q, p using AcquirePc.points
  case' supervise i g id site p => cases site, p using SupervisePc.points
  case cancel p =>
    exact Domain.wp_cancel_remains hp ha (fun h => hin h fun _ => rfl) (fun _ _ h => ⟨h, trivial⟩)
      fun _ h => ⟨h, trivial⟩
  case shutdown p =>
    exact Domain.wp_shutdown_remains hp ha (fun h => hin h fun _ => rfl)
      fun _ _ h => ⟨h, trivial⟩
  case terminate_cancel p =>
    rw [Pc.code_terminateCancel]
    exact Domain.wp_cancel_remains hp ha (fun h => hin h fun _ => rfl)
      (fun _ _ h => ⟨h, trivial⟩) fun _ h => ⟨h, trivial⟩
  case terminate_lock => exact fun _ => ⟨hp, trivial⟩
  case terminate_collect => exact ⟨fun _ => ⟨hp, trivial⟩, fun _ _ _ => ⟨hp, trivial⟩⟩
  case terminate_dropSupervisor => exact ⟨hp, trivial⟩
  case terminate_abort => exact ⟨fun _ => ⟨trivial, trivial⟩, fun _ _ _ => ⟨hp, trivial⟩⟩
  case terminate_abortOne => exact ⟨hp, trivial⟩
  case terminate_shutdown p =>
    rw [Pc.code_terminateShutdown]
    exact Domain.wp_shutdown_remains hp ha (fun h => hin h fun _ => rfl)
      fun _ _ h => ⟨h, trivial⟩
  case acquire.guard_remove_entry | supervise.cleanup_entry =>
    refine ⟨⟨trivial, trivial⟩, fun _ => ⟨fun _ _ => ?_, fun _ => ⟨trivial, trivial⟩⟩⟩
    dsimp only
    split <;> exact ⟨trivial, trivial⟩
  all_goals
    repeat' first
      | exact trivial
      | apply And.intro
      | intro _

/-! ## No control stays active -/

section

variable {ok : State R K E → Action R K E → Prop} {s s' : State R K E}
  (hok : ∀ s a, ok s a → a.KeepsSupervisor)
include hok

/-- The holder of the supervisor lock finds every active control in the table. -/
theorem active_in_table (hs : Reach (step cfg) ok State.new s)
    (hl : (s.pc t).supervises = true) (hn : ∀ g, (s.pc t).activating g = 0) :
    s.mem.ActiveIn (s.mem.tasks.map Prod.snd) := by
  intro g hg
  rcases listed_of_active hok hs hg with ⟨id, hid⟩ | ⟨u, q, site, hp⟩
  · exact List.mem_map_of_mem hid
  · have hu := (locked_of_reach hs u).supervisor (by rw [hp]; rfl)
    obtain rfl : t = u :=
      Option.some.inj (((locked_of_reach hs t).supervisor hl).symm.trans hu)
    have := hn g
    rw [hp] at this
    exact absurd (isGen_pos g) (this ▸ Nat.lt_irrefl 0)

theorem remains_of_reach (hs : Reach (step cfg) ok State.new s) (u : Tid) :
    (s.pc u).Remains s.mem := by
  revert u
  refine hs.invariant_of_reach (fun s => ∀ u, (s.pc u).Remains s.mem) (fun _ => trivial) ?_
  intro s a s' hs ih _ h
  refine forall_pc_step (fun m _ p => p.Remains m) h ih (fun u _ => ?_) ?_ ?_ ?_ ?_
  · by_cases ha : s.mem.Accepting
    · exact .of_accepting ((past_of_reach hs).2 u) ha
    · exact (ih u).mono fun g => active_step hs h ha
  · rintro t p - rfl - hp
    exact remains_run hp ((agrees_of_reach hs).2 t) (active_in_table hok hs)
  · rintro t p p' hj - - hp
    cases hj <;> exact hp
  · rintro c m p rfl hc
    cases hc <;> trivial
  · rintro m c hh
    cases hh
    trivial

end

/-! ## What is begun later fails -/

/-- How far a call comes that was begun after the domain had stopped accepting. An acquisition is at
its first load or has returned `ShuttingDown`; `get` and `upgrade` are refused the entry they hold
and return `None`, `status` returns no active generation, and `all` nothing. -/
def Pc.Refused : Pc R K E → Prop
  | .acquire _ .accepting => True
  | .acquire _ (.create site p) => site = none ∧ p = .accepting
  | .acquire _ (.returned result) => result = .err .shuttingDown
  | .acquire .. => False
  | .discover _ _ (.tryAcquire _ _ p) => p = .accepting
  | .discover _ _ (.dropState _ st) | .discover _ _ (.returned st) => st.toGet = none
  | .discover _ _ (.deliver _) => False
  | .all _ (.tryAcquire _ _ found p) => found = [] ∧ p = .accepting
  | .all _ (.filter _ found) | .all _ (.dropEntry _ _ found) | .all _ (.returned found) =>
    found = []
  | .upgrade _ (.tryAcquire p) => p = .accepting
  | .upgrade _ .deliver => False
  | .upgrade _ (.returned result) => result = none
  | _ => True

theorem refused_run (hp : p.Refused) (ha : ¬ m.Accepting) :
    p.code.wp cfg t m fun _ p' c => p'.Refused ∧ ForSome Pc.Refused c := by
  cases p using Pc.points
  case acquire_accepting | acquire_create_accepting_none =>
    exact ⟨fun h => absurd h ha, fun _ => ⟨rfl, trivial⟩⟩
  case acquire_create_accepting_some => cases hp.1
  case discover_tryAcquire_accepting | upgrade_tryAcquire_accepting =>
    exact ⟨fun h => absurd h ha, fun _ => ⟨trivial, trivial⟩⟩
  case all_tryAcquire_accepting => exact ⟨fun h => absurd h ha, fun _ => ⟨hp.1, trivial⟩⟩
  case discover_tryAcquire_active | discover_tryAcquire_acceptingAgain
      | discover_tryAcquire_activeAgain | upgrade_tryAcquire_active
      | upgrade_tryAcquire_acceptingAgain | upgrade_tryAcquire_activeAgain => cases hp
  case all_tryAcquire_active | all_tryAcquire_acceptingAgain | all_tryAcquire_activeAgain =>
    cases hp.2
  case discover_dropState_active => cases hp
  case all_filter_cons =>
    exact ⟨fun _ => ⟨⟨hp, rfl⟩, trivial⟩, fun _ => ⟨hp, trivial⟩⟩
  case supervise_cleanup_entry =>
    refine ⟨⟨trivial, trivial⟩, fun _ => ⟨fun _ _ => ?_, fun _ => ⟨trivial, trivial⟩⟩⟩
    dsimp only
    split <;> exact ⟨trivial, trivial⟩
  all_goals try exact hp.elim
  all_goals try cases hp.2
  all_goals
    repeat' first
      | exact trivial
      | exact rfl
      | exact hp
      | apply And.intro
      | intro _

/-- Every call begun after the domain has stopped accepting fails. -/
theorem refused_of_reach {ok : State R K E → Action R K E → Prop} {s s' : State R K E}
    (hs : Reach (step cfg) ok State.new s) (hr : Reach (step cfg) ok s s')
    (ha : ¬ s.mem.Accepting) {u : Tid} (hu : s.size ≤ u) : (s'.pc u).Refused := by
  have hinv : ¬ s'.mem.Accepting ∧ ∀ u, s.size ≤ u → (s'.pc u).Refused := by
    refine hr.invariant (fun s' => ¬ s'.mem.Accepting ∧ ∀ u, s.size ≤ u → (s'.pc u).Refused)
      ⟨ha, fun u hu => ?_⟩ ?_
    · rw [fresh_of_reach hs u hu]
      trivial
    · rintro v a v' ⟨ha, ih⟩ - h
      refine ⟨fun h' => ha ((grows_step h).accepting h'), ?_⟩
      refine forall_pc_step (fun _ u p => s.size ≤ u → p.Refused) h ih (fun u _ => ih u) ?_ ?_ ?_ ?_
      · intro t p _ _ _ hp
        by_cases ht : s.size ≤ t
        · refine (refused_run (hp ht) ha).mono fun _ p' c h => ⟨fun _ => h.1, ?_⟩
          cases c with
          | none => trivial
          | some c => exact fun _ => h.2
        · refine (wp_child p).mono fun _ p' c h => ⟨fun h => absurd h ht, ?_⟩
          cases c with
          | none => trivial
          | some c =>
            rcases h with ⟨g, rfl⟩ | h
            · exact fun _ => trivial
            · cases c
              case supervise => exact fun _ => trivial
              all_goals cases h
      · rintro t p p' hj - - hp ht
        have hp := hp ht
        cases hj
        case build | buildUnique => cases hp.2
        all_goals first | exact hp.elim | trivial
      · rintro c m p rfl hc _
        cases hc
        case spawn => exact ⟨rfl, rfl⟩
        all_goals trivial
      · rintro m c hh _
        cases hh
        trivial
  exact hinv.2 u hu

/-! ## What has not been registered fails -/

/-- `create` has not put its generation into the supervisor table. -/
def ResourceContext.CreatePc.unregistered : CreatePc → Bool
  | .register _ (.dropSupervisor (some _)) | .insertLive .. | .spawnSupervisor .. => false
  | _ => true

/-- An acquisition that holds an owner claim or creates a unique generation, and has not put it
into the supervisor table or is giving it up. -/
def ResourceContext.AcquirePc.unregistered : AcquirePc → Bool
  | .claim p => p.owner?.isSome
  | .cloneKey .. | .cloneCleanupKey .. | .guard .. => true
  | .create _ p => p.unregistered
  | _ => false

@[inherit_doc AcquirePc.unregistered]
def Pc.unregistered : Pc R K E → Bool
  | .acquire _ p => p.unregistered
  | _ => false

/-- Not a success. -/
def Acquired.Failed (result : Acquired) : Prop := ∀ g, result ≠ .ok g

namespace Acquired.Failed

theorem err (e : AcquireError) : (Acquired.err e).Failed := fun _ => nofun

theorem dropped : Acquired.dropped.Failed := fun _ => nofun

theorem panicked : Acquired.panicked.Failed := fun _ => nofun

end Acquired.Failed

/-- An acquisition that can only fail. -/
def Pc.Doomed : Pc R K E → Prop
  | .acquire _ (.guard _ _ result _) | .acquire _ (.returned result) => result.Failed
  | .acquire _ p => p.unregistered = true
  | _ => False

/-- The drop of an armed construction guard is on the way to a failure. -/
def Pc.GivesUp : Pc R K E → Prop
  | .acquire _ (.guard _ _ result _) => result.Failed
  | _ => True

theorem givesUp_run (hp : p.GivesUp) :
    p.code.wp cfg t m fun _ p' c => p'.GivesUp ∧ ForSome Pc.GivesUp c := by
  cases p using Pc.points
  case acquire_guard_remove_entry | supervise_cleanup_entry =>
    refine ⟨⟨trivial, trivial⟩, fun _ => ⟨fun _ _ => ?_, fun _ => ⟨hp, trivial⟩⟩⟩
    dsimp only
    split <;> exact ⟨hp, trivial⟩
  all_goals
    repeat' first
      | exact trivial
      | exact hp
      | exact Acquired.Failed.err _
      | exact Acquired.Failed.panicked
      | apply And.intro
      | intro _

theorem givesUp_of_reach {ok : State R K E → Action R K E → Prop} {s : State R K E}
    (hs : Reach (step cfg) ok State.new s) (u : Tid) : (s.pc u).GivesUp := by
  revert u
  refine hs.invariant (fun s => ∀ u, (s.pc u).GivesUp) (fun _ => trivial) ?_
  intro s a s' ih _ h
  refine forall_pc_step (fun _ _ p => p.GivesUp) h ih (fun u _ => ih u)
    (fun t p _ _ _ hp => givesUp_run hp) ?_ ?_ ?_
  · rintro t p p' hj - - hp
    cases hj
    case build => exact .dropped
    all_goals trivial
  · rintro c m p rfl hc
    cases hc <;> trivial
  · rintro m c hh
    cases hh
    trivial

omit [DecidableEq R] [DecidableEq K] in
theorem Pc.Doomed.of_unregistered (h : p.unregistered = true) (hg : p.GivesUp) : p.Doomed := by
  cases_type* Pc AcquirePc
  case acquire.guard => exact hg
  case acquire.returned => cases h
  case acquire.create => exact h
  all_goals first | exact h | cases h

/-- In a domain that has stopped accepting nothing is activated, and so nothing registered. -/
theorem doomed_run (hp : p.Doomed) (hag : p.Agrees m) (ha : ¬ m.Accepting) :
    p.code.wp cfg t m fun _ p' _ => p'.Doomed := by
  cases p using Pc.points
  case' acquire_claim_dropState claim => cases claim
  all_goals try exact hp.elim
  all_goals try (cases hp; done)
  case acquire_create_register_activate | acquire_create_register_insert => exact absurd hag ha
  case acquire_create_cancel_load | acquire_create_cancel_exchange | acquire_create_cancel_token =>
    rw [Pc.code_createCancel]
    exact Control.wp_cancel (fun _ _ _ => rfl) fun _ _ => rfl
  case acquire_guard_remove_entry =>
    refine ⟨.panicked, fun _ => ⟨fun _ _ => ?_, fun _ => hp⟩⟩
    dsimp only
    split <;> exact hp
  all_goals
    repeat' first
      | exact trivial
      | exact hp
      | exact rfl
      | exact Acquired.Failed.err _
      | exact Acquired.Failed.panicked
      | apply And.intro
      | intro _

theorem doomed_of_reach {ok : State R K E → Action R K E → Prop} {s s' : State R K E}
    (hs : Reach (step cfg) ok State.new s) (hr : Reach (step cfg) ok s s')
    (ha : ¬ s.mem.Accepting) {u : Tid} (hu : (s.pc u).Doomed) : (s'.pc u).Doomed := by
  have hinv : ¬ s'.mem.Accepting ∧ (s'.pc u).Doomed := by
    refine hr.invariant_of_reach (fun s' => ¬ s'.mem.Accepting ∧ (s'.pc u).Doomed) ⟨ha, hu⟩ ?_
    rintro v a v' hv ⟨ha, ih⟩ - h
    have hv := hs.trans hv
    refine ⟨fun h' => ha ((grows_step h).accepting h'), ?_⟩
    have hsize : u < v.size :=
      lt_size_of_ne_idle (fresh_of_reach hv) fun e => by rw [e] at ih; exact ih
    refine forall_pc_step (fun _ w p => w = u → p.Doomed) h (fun w e => e ▸ ih)
      (fun w _ e => e ▸ ih) ?_ ?_ ?_ ?_ u rfl
    · rintro t p - rfl - hp
      by_cases ht : t = u
      · refine (doomed_run (hp ht) ((agrees_of_reach hv).2 t) ha).mono fun _ p' c h =>
          ⟨fun _ => h, ?_⟩
        cases c with
        | none => trivial
        | some c => exact fun e => absurd (e ▸ hsize) (Nat.lt_irrefl _)
      · refine (wp_child _).mono fun _ p' c _ => ⟨fun e => absurd e ht, ?_⟩
        cases c with
        | none => trivial
        | some c => exact fun e => absurd (e ▸ hsize) (Nat.lt_irrefl _)
    · rintro t p p' hj - - hp ht
      have hp := hp ht
      cases hj
      case build | buildUnique => exact .dropped
      all_goals first | exact hp.elim | cases hp
    · exact fun c m p _ _ e => absurd (e ▸ hsize) (Nat.lt_irrefl _)
    · exact fun m c _ e => absurd (e ▸ hsize) (Nat.lt_irrefl _)
  exact hinv.2

/-! ## The barrier -/

/-- A call of `Domain::cancel` has returned, to its caller, to `shutdown` or to `terminate`. -/
def Pc.hasCancelled : Pc R K E → Bool
  | .cancelled => true
  | .shutdown (.cancel _) | .terminate (.cancel _) | .terminate (.shutdown (.cancel _)) => false
  | .shutdown _ | .terminate _ => true
  | _ => false

omit [DecidableEq R] [DecidableEq K] in
theorem stopped_of_hasCancelled (h : p.hasCancelled = true) (hp : p.Past m) (hr : p.Remains m) :
    m.Stopped ∧ m.ActiveIn [] := by
  cases_type* Pc Domain.ShutdownPc Domain.TerminatePc
  all_goals try (cases h; done)
  case cancelled | shutdown.notified | shutdown.dropped | terminate.lock | terminate.collect
      | terminate.dropSupervisor | terminate.abort | terminate.abortOne
      | terminate.shutdown.notified | terminate.shutdown.dropped => exact ⟨hp, hr⟩
  all_goals exact ⟨hp.1, hr⟩

theorem inactive_of_reach {ok : State R K E → Action R K E → Prop} {s s' : State R K E}
    (hs : Reach (step cfg) ok State.new s) (hr : Reach (step cfg) ok s s')
    (ha : ¬ s.mem.Accepting) (hg : s.mem.ActiveIn []) : s'.mem.ActiveIn [] := by
  have hinv : ¬ s'.mem.Accepting ∧ s'.mem.ActiveIn [] := by
    refine hr.invariant_of_reach (fun s' => ¬ s'.mem.Accepting ∧ s'.mem.ActiveIn []) ⟨ha, hg⟩ ?_
    rintro v a v' hv ⟨ha, ih⟩ - h
    exact ⟨fun h' => ha ((grows_step h).accepting h'),
      ih.mono fun _ => active_step (hs.trans hv) h ha⟩
  exact hinv.2

/-- **Cancel is a barrier**, in every run whose supervising futures run to their end. Once a call of
`cancel` has returned, no control is active then or later, the token of every registered generation
is cancelled, and every call begun afterwards is refused: an acquisition gets no further than its
first load, and what has returned has failed. And an acquisition that had not put its generation
into the supervisor table when the domain left `Running` never ends in a reference. -/
theorem cancel_is_barrier {s₀ s s' : State R K E}
    (hs₀ : Reach (step cfg) (fun _ a => a.KeepsSupervisor) State.new s₀)
    (hs : Reach (step cfg) (fun _ a => a.KeepsSupervisor) s₀ s)
    (hr : Reach (step cfg) (fun _ a => a.KeepsSupervisor) s s')
    (ht : (s.pc t).hasCancelled = true) :
    (∀ g, s'.mem.control g ≠ .active) ∧
      (∀ g, s'.mem.taskId g ≠ none → s'.mem.Cancelled g) ∧
      (∀ u, s.size ≤ u → (s'.pc u).Refused) ∧
      (s₀.mem.phase ≠ .running → ∀ u, (s₀.pc u).unregistered = true →
        ∀ q g, s'.pc u ≠ .acquire q (.returned (.ok g))) := by
  have hnew := hs₀.trans hs
  obtain ⟨⟨hacc, hsd⟩, hact⟩ := stopped_of_hasCancelled ht ((past_of_reach hnew).2 t)
    (remains_of_reach (fun _ _ => id) hnew t)
  refine ⟨fun g hg => ?_, fun g _ => ?_, fun u hu => ?_, fun hp u hu q g he => ?_⟩
  · exact absurd (inactive_of_reach hnew hr hacc hact g hg) List.not_mem_nil
  · exact .inr ((grows_of_reach hr).shutdown hsd)
  · exact refused_of_reach hnew hr hacc hu
  · have hd := doomed_of_reach hs₀ (hs.trans hr) hp (.of_unregistered hu (givesUp_of_reach hs₀ u))
    rw [he] at hd
    exact hd g rfl

/-- A generation is created, and the domain cancelled. -/
def cancelRun : List (Action Unit Unit Unit) :=
  .call (.acquire ⟨.spawn, ⟨(), ()⟩⟩) :: List.replicate 14 (.run 0 .go) ++
    .call .cancel :: List.replicate 6 (.run 2 .go) ++ .run 2 (.pick 0) ::
      List.replicate 4 (.run 2 .go)

theorem cancelRun_inactive :
    ((afterwards false cancelRun).get (by decide +kernel)).mem.control 0 ≠ .active :=
  (cancel_is_barrier .refl
    (reach_afterwards Action.KeepsSupervisor (by decide +kernel) (by decide +kernel)) .refl
    (t := 2) (by decide +kernel)).1 0

end Resourcery
