import Resourcery.Proof.Generation

/-!
# What the threads know of the generations they name

`Pc.Known` says, point by point, which generation a thread works for: its identity, its site, its
id in the supervisor table; that the generations in a snapshot of the table are registered; and
that a destructor runs for an entry nobody holds.
-/

namespace Resourcery

open Interleaving Function Transition ResourceContext

variable {R K E : Type}

/-! ## Point by point -/

/-- `g` is a generation of `i` whose `on_finish` closure has captured `site`. -/
def Memory.Made (m : Memory R K E) (i : Ident R K) (site : Option Site) (g : GenId) : Prop :=
  g < m.nextGen ∧ m.ident g = some i ∧ m.site g = site

/-- Every one of `gs` is registered. -/
def Memory.Registered (m : Memory R K E) (gs : List GenId) : Prop := ∀ g ∈ gs, m.taskId g ≠ none

namespace Domain

/-- The generations of a snapshot of the supervisor table. -/
def CancelPc.gens : CancelPc → List GenId
  | .dropSupervisor gs | .next gs => gs
  | .control g gs _ => g :: gs
  | _ => []

@[inherit_doc CancelPc.gens]
def ShutdownPc.gens : ShutdownPc → List GenId
  | .cancel p => p.gens
  | _ => []

@[inherit_doc CancelPc.gens]
def TerminatePc.gens : TerminatePc → List GenId
  | .cancel p => p.gens
  | .dropSupervisor gs | .abort gs => gs
  | .abortOne g gs => g :: gs
  | .shutdown p => p.gens
  | _ => []

end Domain

/-- Before its registration and after a failed one a generation has no id. -/
def ResourceContext.CreatePc.Known (m : Memory R K E) (i : Ident R K) (site : Option Site) :
    CreatePc → Prop
  | .accepting | .build | .newEntry => True
  | .spawnTask g => m.Made i site g ∧ m.taskId g = none ∧ m.task g = .unspawned
  | .register g (.dropSupervisor (some id)) | .insertLive g id | .spawnSupervisor g id =>
    m.Made i site g ∧ m.taskId g = some id
  | .register g _ | .abort g | .cancel g _ | .dropStart g | .dropEntry g | .dropSender g =>
    m.Made i site g ∧ m.taskId g = none

/-- A cleanup is that of the site of its generation. -/
def ResourceContext.SupervisePc.cleansUp (site : Option Site) : SupervisePc E → Prop
  | .cleanup x _ _ => site = some x
  | _ => True

/-- What a thread knows of the generations it names. -/
def Pc.Known (m : Memory R K E) : Pc R K E → Prop
  | .acquire q (.create site p) => p.Known m q.ident site
  | .acquire q (.settle n generation g _) =>
    m.Made q.ident (some ⟨n, generation⟩) g ∧ m.taskId g ≠ none
  | .acquire q (.start g) => m.Made q.ident none g ∧ m.taskId g ≠ none
  | .cancel p => m.Registered p.gens
  | .shutdown p => m.Registered p.gens
  | .terminate p => m.Registered p.gens
  | .drop g _ => g < m.nextGen ∧ m.strong g = 0
  | .supervise i g id site p => m.Made i site g ∧ m.taskId g = some id ∧ p.cleansUp site
  | _ => True

variable {cfg : Config R K} {t : Tid} {m m' : Memory R K E} {p : Pc R K E} {g : GenId}

/-! ## Stability -/

theorem Memory.Made.mono {i : Ident R K} {site : Option Site} (h : m.Made i site g)
    (hg : Grows m m') : m'.Made i site g :=
  ⟨h.1.trans_le hg.nextGen, (hg.ident g h.1).trans h.2.1, (hg.site g h.1).trans h.2.2⟩

theorem Memory.Registered.mono {gs : List GenId} (h : m.Registered gs) (hg : Grows m m') :
    m'.Registered gs :=
  fun x hx => hg.registered x (h x hx)

theorem Memory.Registered.nil : m.Registered [] := fun _ h => absurd h List.not_mem_nil

theorem Pc.Known.stable (h : p.Known m) (hg : Grows m m') (hi : Inert m m')
    (ho : ∀ g, 0 < p.charge g → Own g m m') : p.Known m' := by
  unfold Pc.Known at *
  split <;> simp only at h
  case h_1 q site p =>
    have hown (g : GenId) (hp : p.gen? = some g) : Own g m m' := by
      refine ho g ?_
      show 0 < isGen g p.gen?
      rw [hp]
      exact isGen_pos g
    clear ho
    cases p
    case spawnTask g =>
      exact ⟨h.1.mono hg, (hown _ rfl).taskId.trans h.2.1, (hown _ rfl).unspawned h.2.2⟩
    case register g p =>
      cases p
      case dropSupervisor id =>
        cases id <;> exact ⟨h.1.mono hg, (hown _ rfl).taskId.trans h.2⟩
      all_goals exact ⟨h.1.mono hg, (hown _ rfl).taskId.trans h.2⟩
    case accepting | build | newEntry => trivial
    all_goals exact ⟨h.1.mono hg, (hown _ rfl).taskId.trans h.2⟩
  case h_2 => exact ⟨h.1.mono hg, hg.registered _ h.2⟩
  case h_3 => exact ⟨h.1.mono hg, hg.registered _ h.2⟩
  case h_4 | h_5 | h_6 => exact h.mono hg
  case h_7 g _ =>
    refine ⟨h.1.trans_le hg.nextGen, (hi.2 g h.2).resolve_right fun he => ?_⟩
    exact absurd h.1 (he.1 ▸ Nat.lt_irrefl _)
  case h_8 i g id site p =>
    exact ⟨h.1.mono hg, (ho g (isGen_pos g)).taskId.trans h.2.1, h.2.2⟩
  case h_9 => trivial

/-! ## Steps -/

variable [DecidableEq R] [DecidableEq K]

section Operations

variable {α : Type} {Q : Memory R K E → α → Option α → Prop} {ret : α}

theorem Domain.wp_cancel_registered {goto : CancelPc → α} {p : CancelPc} (hm : Tables m)
    (hp : m.Registered p.gens)
    (hgoto : ∀ m' p', m'.Registered p'.gens → Q m' (goto p') none)
    (hret : ∀ m', Q m' ret none) : (cancel goto ret p).wp cfg t m Q := by
  have nil {m' : Memory R K E} : m'.Registered [] := fun _ h => absurd h List.not_mem_nil
  cases p
  case exchange => exact ⟨fun _ => hgoto _ _ nil, fun _ => hgoto _ _ nil⟩
  case loadPhase =>
    exact ⟨fun _ => hgoto _ _ nil, fun _ => hgoto _ _ nil, fun _ => hgoto _ _ nil⟩
  case collect =>
    refine ⟨fun _ => hgoto _ _ nil, fun e es he => hgoto _ _ fun x hx => ?_⟩
    obtain ⟨e', he', rfl⟩ := List.mem_map.mp hx
    rw [hm.entry e' (he ▸ he')]
    exact Option.some_ne_none _
  case dropSupervisor => exact hgoto _ _ hp
  case next gs =>
    refine ⟨fun _ => hret _, fun n g hn => hgoto _ _ fun x hx => ?_⟩
    rcases List.mem_cons.mp hx with rfl | hx
    · exact hp _ (List.mem_of_getElem? hn)
    · exact hp x (List.mem_of_mem_eraseIdx hx)
  case control g gs p =>
    exact Control.wp_cancel (fun _ _ _ => hgoto _ _ hp)
      fun _ _ => hgoto _ _ fun x hx => hp x (List.mem_cons_of_mem _ hx)
  all_goals first | exact hgoto _ _ nil | exact fun _ => hgoto _ _ nil

theorem Domain.wp_shutdown_registered {goto : ShutdownPc → α} {p : ShutdownPc} (hm : Tables m)
    (hp : m.Registered p.gens)
    (hgoto : ∀ m' p', m'.Registered p'.gens → Q m' (goto p') none) :
    (shutdown goto p).wp cfg t m Q := by
  have nil {m' : Memory R K E} : m'.Registered [] := fun _ h => absurd h List.not_mem_nil
  cases p
  case cancel p =>
    exact wp_cancel_registered hm hp (fun m' p' => hgoto m' (.cancel p'))
      fun m' => hgoto m' .notified nil
  case loadPhase =>
    exact ⟨fun _ => hgoto _ _ nil, fun _ => hgoto _ _ nil, fun _ => hgoto _ _ nil⟩
  case notified => exact hgoto _ _ nil
  case wait => exact fun _ => hgoto _ _ nil
  all_goals trivial

end Operations

theorem known_run (hm : Tables m) (hf : ∀ g, m.nextGen ≤ g → m.strong g = 0) (hp : p.Known m) :
    p.code.wp cfg t m fun m' p' c => p'.Known m' ∧ ForSome (Pc.Known m') c := by
  have destroy {x : GenId} (hx : m.strong x = 1) :
      x < m.nextGen ∧ update m.strong x 0 x = 0 := by
    refine ⟨?_, update_self _ _ _⟩
    by_contra hn
    rw [hf x (Nat.le_of_not_lt hn)] at hx
    cases hx
  cases p using Pc.operations
  case' acquire q p => cases q, p using AcquirePc.points
  case' supervise i g id site p => cases site, p using SupervisePc.points
  case cancel p =>
    exact Domain.wp_cancel_registered hm hp (fun _ _ h => ⟨h, trivial⟩) fun _ => ⟨trivial, trivial⟩
  case shutdown p =>
    exact Domain.wp_shutdown_registered hm hp fun _ _ h => ⟨h, trivial⟩
  case terminate_cancel p =>
    rw [Pc.code_terminateCancel]
    exact Domain.wp_cancel_registered hm hp (fun _ _ h => ⟨h, trivial⟩)
      fun _ => ⟨fun _ h => absurd h List.not_mem_nil, trivial⟩
  case terminate_lock => exact fun _ => ⟨hp, trivial⟩
  case terminate_collect =>
    refine ⟨fun _ => ⟨hp, trivial⟩, fun e es he => ⟨fun x hx => ?_, trivial⟩⟩
    obtain ⟨e', he', rfl⟩ := List.mem_map.mp hx
    rw [hm.entry e' (he ▸ he')]
    exact Option.some_ne_none _
  case terminate_dropSupervisor => exact ⟨hp, trivial⟩
  case terminate_abort gs =>
    refine ⟨fun _ => ⟨fun _ h => absurd h List.not_mem_nil, trivial⟩,
      fun n g hn => ⟨fun x hx => ?_, trivial⟩⟩
    rcases List.mem_cons.mp hx with rfl | hx
    · exact hp _ (List.mem_of_getElem? hn)
    · exact hp x (List.mem_of_mem_eraseIdx hx)
  case terminate_abortOne g gs => exact ⟨fun x hx => hp x (List.mem_cons_of_mem _ hx), trivial⟩
  case terminate_shutdown p =>
    rw [Pc.code_terminateShutdown]
    exact Domain.wp_shutdown_registered hm hp fun _ _ h => ⟨h, trivial⟩
  case acquire.claim_dropFound_spawn | acquire.claim_dropFound_getOrSpawn
      | acquire.claim_dropFound_tryGetOrSpawn | acquire.claim_dropResource
      | acquire.settle_dropResource | discover_dropEntry | upgrade_dropEntry
      | all_dropEntry =>
    exact ⟨fun h1 => ⟨trivial, destroy h1⟩, fun _ => ⟨trivial, trivial⟩⟩
  case acquire.create_dropEntry => exact ⟨fun h1 => ⟨hp, destroy h1⟩, fun _ => ⟨hp, trivial⟩⟩
  case acquire.create_newEntry =>
    obtain ⟨h1, -, -, -, h5, -⟩ := hm.fresh _ (Nat.le_refl _)
    exact ⟨⟨⟨Nat.lt_succ_self _, update_self _ _ _, update_self _ _ _⟩, h1, h5⟩, trivial⟩
  case acquire.create_spawnTask => exact ⟨⟨hp.1, hp.2.1⟩, trivial⟩
  case acquire.create_register_insert => exact ⟨⟨hp.1, update_self _ _ _⟩, trivial⟩
  case acquire.create_spawnSupervisor_none | acquire.create_spawnSupervisor_some =>
    refine ⟨⟨hp.1, ?_⟩, hp.1, hp.2, trivial⟩
    rw [hp.2]
    exact Option.some_ne_none _
  case supervise.finish_some => exact ⟨⟨hp.1, hp.2.1, rfl⟩, trivial⟩
  case acquire.guard_remove_entry =>
    refine ⟨⟨trivial, trivial⟩, fun _ => ⟨fun _ _ => ⟨?_, trivial⟩, fun _ => ⟨trivial, trivial⟩⟩⟩
    dsimp only
    split <;> trivial
  case supervise.cleanup_entry =>
    refine ⟨⟨⟨hp.1, hp.2.1, trivial⟩, trivial⟩,
      fun _ => ⟨fun _ _ => ⟨?_, trivial⟩, fun _ => ⟨hp, trivial⟩⟩⟩
    dsimp only
    split <;> exact hp
  case supervise.cleanup_dropEntry => exact ⟨⟨hp.1, hp.2.1, trivial⟩, trivial⟩
  all_goals
    repeat' first
      | exact trivial
      | exact hp
      | apply And.intro
      | intro _

omit [DecidableEq R] [DecidableEq K] in
/-- A thread writes to generations that exist. -/
theorem touching_of_known (hm : Tables m) (hp : p.Known m) : p.code.Touching m := by
  cases p using Pc.points
  all_goals
    first
    | exact trivial
    | exact hp.1.1
    | exact hp.1
    | exact hm.lt_nextGen (hp _ List.mem_cons_self)
    | exact ⟨hp.1.1, hp.2⟩

/-- What the threads know of the generations, with the tables, in every reachable state. -/
theorem known_of_reach {ok : State R K E → Action R K E → Prop} {s : State R K E}
    (hr : Reach (step cfg) ok State.new s) : Tables s.mem ∧ ∀ u, (s.pc u).Known s.mem := by
  refine hr.invariant_of_reach (fun s => Tables s.mem ∧ ∀ u, (s.pc u).Known s.mem) ?_ ?_
  · refine ⟨⟨fun _ _ => ?_, fun e he => ?_, fun _ _ h => ?_, fun _ _ _ h => ?_⟩, fun _ => trivial⟩
    · exact ⟨rfl, rfl, rfl, rfl, rfl, rfl⟩
    · exact absurd he List.not_mem_nil
    · cases h
    · cases h
  · intro s a s' hs ⟨hm, ih⟩ _ h
    have hc := counted_of_reach hs
    have hx := charge_of_reach hs
    have hsize {u : Tid} {g : GenId} (hu : 0 < (s.pc u).charge g) : u < s.size :=
      lt_size_of_ne_idle (fresh_of_reach hs) fun e => by rw [e] at hu; exact Nat.lt_irrefl _ hu
    refine inv_step Tables (fun m _ p => p.Known m) h hm ih (fun _ u hu => ?_) ?_ ?_ ?_ ?_ ?_
    · exact (ih u).stable (grows_step h) (hc.inert h)
        fun g hg => own_step h hx (hsize hg) hg hu
    · rintro t p - rfl - hp
      exact ((wp_tables (touching_of_known hm hp) hm).and (known_run hm hc.fresh hp)).mono
        fun _ _ _ ⟨ht, hk⟩ => ⟨⟨ht, hk.1⟩, hk.2⟩
    · rintro t p p' hj - - hp
      cases hj
      case join | finish | publish => exact ⟨hp.1, hp.2.1, trivial⟩
      case unpolled => exact ⟨hp.1, hp.2.1, trivial⟩
      all_goals trivial
    · rintro c m p rfl hc
      have hm' : Tables m := by cases hc <;> exact ⟨hm.fresh, hm.entry, hm.bound, hm.inj⟩
      refine ⟨hm', ?_⟩
      cases hc
      case cancel | shutdown | terminate => exact Memory.Registered.nil
      all_goals trivial
    · rintro g st ht
      refine ⟨fun x hx => ?_, hm.entry, hm.bound, hm.inj⟩
      obtain ⟨a1, a2, a3, a4, a5, a6⟩ := hm.fresh x hx
      have hne : x ≠ g := by
        rintro rfl
        cases ht <;> simp_all
      exact ⟨a1, a2, a3, a4, (update_of_ne hne _ _).trans a5, a6⟩
    · rintro m c hh
      have hm' : Tables m := by cases hh <;> exact ⟨hm.fresh, hm.entry, hm.bound, hm.inj⟩
      refine ⟨hm', ?_⟩
      cases hh
      case releaseLast hl _ _ =>
        refine ⟨?_, update_self _ _ _⟩
        by_contra hn
        have := hc.pos_of_mem hl
        rw [hc.fresh _ (Nat.le_of_not_lt hn)] at this
        exact Nat.lt_irrefl _ this
      all_goals trivial

end Resourcery
