import Resourcery.Proof.Ending

/-!
# Supervision

A registered generation has a thread in charge of it from its registration on: its creator, then
its supervising future. Unless the executor drops a supervising future before its first poll, its
id is in the supervisor table until that thread has called `task_finished`.
-/

namespace Resourcery

open Interleaving Function Transition ResourceContext

variable {R K E : Type}

/-! ## Threads that supervise -/

/-- The thread is a supervising future. -/
def Pc.isSupervising : Pc R K E → Bool
  | .supervise .. => true
  | _ => false

/-- A thread that supervises starts as one, at the end of `create`. -/
def Supervises (m : Memory R K E) (p : Pc R K E) (m' : Memory R K E) (p' : Pc R K E)
    (c : Option (Pc R K E)) : Prop :=
  p'.isSupervising = false ∧
    ForSome (fun c => (∃ g, c = .destructor g) ∨ ∃ q site g id,
      p = .acquire q (.create site (.spawnSupervisor g id)) ∧
        c = .supervise q.ident g id site .unpolled ∧ m' = m) c

variable {cfg : Config R K} {t : Tid} {m m' : Memory R K E} {p : Pc R K E} {g : GenId} {id : ℕ}

section

variable [DecidableEq R] [DecidableEq K]

theorem wp_supervises (h : p.isSupervising = false) :
    p.code.wp cfg t m fun m' p' c => Supervises m p m' p' c := by
  cases p using Pc.points
  all_goals try (cases h; done)
  case acquire_create_spawnSupervisor_none | acquire_create_spawnSupervisor_some =>
    exact ⟨rfl, .inr ⟨_, _, _, _, rfl, rfl, rfl⟩⟩
  case acquire_guard_remove_entry =>
    refine ⟨⟨rfl, trivial⟩, fun _ => ⟨fun _ _ => ?_, fun _ => ⟨rfl, trivial⟩⟩⟩
    dsimp only
    split <;> exact ⟨rfl, trivial⟩
  all_goals
    repeat' first
      | exact trivial
      | exact ⟨rfl, trivial⟩
      | exact ⟨rfl, .inl ⟨_, rfl⟩⟩
      | apply And.intro
      | intro _

/-- A supervising future starts no thread. -/
theorem wp_childless (i : Ident R K) (g : GenId) (id : ℕ) (site : Option Site)
    (p : SupervisePc E) :
    (Pc.supervise i g id site p).code.wp cfg t m fun _ _ c => c = none := by
  cases site, p using SupervisePc.points
  all_goals
    repeat' first
      | exact trivial
      | exact rfl
      | apply And.intro
      | intro _

/-- A thread that is started runs a destructor or supervises. -/
theorem wp_child (p : Pc R K E) : p.code.wp cfg t m fun _ _ c =>
    ForSome (fun c => (∃ g, c = .destructor g) ∨ c.isSupervising = true) c := by
  cases h : p.isSupervising with
  | true =>
    unfold Pc.isSupervising at h
    split at h
    · refine (wp_childless _ _ _ _ _).mono fun _ _ c hc => ?_
      rw [hc]
      trivial
    · cases h
  | false =>
    refine (wp_supervises h).mono fun _ _ c hc => ?_
    cases c with
    | none => trivial
    | some c =>
      refine hc.2.imp_right ?_
      rintro ⟨q, site, g, id, -, rfl, -⟩
      rfl

/-- **Rule for supervising futures.** A property that says nothing about other threads is kept by
every action when the step of a supervising future keeps it and it holds of one that is spawned. -/
theorem forall_supervise_step {s s' : State R K E} {a : Action R K E}
    (A : Memory R K E → Pc R K E → Prop) (hA : ∀ m p, p.isSupervising = false → A m p)
    (h : step cfg s a = some s') (ih : ∀ u, A s.mem (s.pc u))
    (hstable : ∀ u, a.actor ≠ some u → A s'.mem (s.pc u))
    (hspawn : ∀ t q site g id, s.pc t = .acquire q (.create site (.spawnSupervisor g id)) →
      A s.mem (.supervise q.ident g id site .unpolled))
    (hrun : ∀ t i g id site p, a.actor = some t → s.pc t = .supervise i g id site p →
      A s.mem (.supervise i g id site p) →
      (Pc.supervise i g id site p).code.wp cfg t s.mem fun m p' _ => A m p')
    (hjump : ∀ t p p', Jump a t p p' → s.pc t = p → p.isSupervising = true → A s.mem p →
      A s.mem p') (u : Tid) : A s'.mem (s'.pc u) := by
  refine forall_pc_step (fun m _ p => A m p) h ih hstable ?_ ?_ ?_ ?_ u
  · intro t p hat hp hr hAp
    cases hsup : p.isSupervising with
    | true =>
      unfold Pc.isSupervising at hsup
      split at hsup
      · rename_i i g id site p
        refine ((hrun t i g id site p hat hp hAp).and (wp_childless i g id site p)).mono ?_
        rintro m p' _ ⟨h, rfl⟩
        exact ⟨h, trivial⟩
      · cases hsup
    | false =>
      refine (wp_supervises hsup).mono fun m p' c hc => ⟨hA m p' hc.1, ?_⟩
      cases c with
      | none => trivial
      | some c =>
        rcases hc.2 with ⟨x, rfl⟩ | ⟨q, site, g, id, rfl, rfl, rfl⟩
        · exact hA m _ rfl
        · exact hspawn t q site g id hp
  · intro t p p' hj hp _ hAp
    cases hsup : p.isSupervising with
    | true => exact hjump t p p' hj hp hsup hAp
    | false =>
      refine hA _ _ ?_
      cases hj <;> first | rfl | cases hsup
  · rintro c m p rfl hc
    refine hA _ _ ?_
    cases hc <;> rfl
  · rintro m c hh
    refine hA _ _ ?_
    cases hh
    rfl

end

/-! ## The thread in charge of a registered generation -/

/-- From `p` a thread goes on at `p'` and starts `c`: the one that registers `g` is in charge of it,
and the charge of a registered generation is not dropped. -/
def Tends (g : GenId) (m : Memory R K E) (p : Pc R K E) (m' : Memory R K E) (p' : Pc R K E)
    (c : Option (Pc R K E)) : Prop :=
  m'.taskId g ≠ none → p.charge g ≤ p'.charge g + (c.map (Pc.charge g)).getD 0 ∧
    (m.taskId g = none → 0 < p'.charge g)

theorem Tends.of_eq {p' : Pc R K E} {c : Option (Pc R K E)}
    (h : p.charge g ≤ p'.charge g + (c.map (Pc.charge g)).getD 0) (h' : m'.taskId = m.taskId) :
    Tends g m p m' p' c := by
  intro hg
  exact ⟨h, fun hn => absurd (h' ▸ hn) hg⟩

variable [DecidableEq R] [DecidableEq K]

theorem wp_tends (hk : p.Known m) : p.code.wp cfg t m fun m' p' c => Tends g m p m' p' c := by
  cases p using Pc.points
  case acquire_create_register_insert q site x =>
    refine fun hg => ⟨Nat.le_refl _, fun hn => ?_⟩
    have hg' : update m.taskId x (some m.nextTask) g ≠ none := hg
    by_cases hx : g = x
    · exact hx ▸ isGen_pos g
    · rw [update_of_ne hx] at hg'
      exact absurd hn hg'
  case acquire_create_dropSender_none q x | acquire_create_dropSender_some q x y =>
    refine fun hg => ⟨?_, fun hn => absurd hn hg⟩
    by_cases hx : x = g
    · exact absurd (hx ▸ hk.2) hg
    · exact (if_neg fun e => hx (Option.some.inj e)).trans_le (Nat.zero_le _)
  case acquire_create_spawnSupervisor_none | acquire_create_spawnSupervisor_some =>
    exact .of_eq (Nat.le_of_eq (Nat.zero_add _).symm) rfl
  case acquire_guard_remove_entry | supervise_cleanup_entry =>
    refine ⟨.of_eq (Nat.le_refl _) rfl,
      fun _ => ⟨fun _ _ => ?_, fun _ => .of_eq (Nat.le_refl _) rfl⟩⟩
    dsimp only
    split <;> exact .of_eq (Nat.le_refl _) rfl
  all_goals
    repeat' first
      | exact trivial
      | exact .of_eq (Nat.le_refl _) rfl
      | exact .of_eq (Nat.zero_le _) rfl
      | apply And.intro
      | intro _

/-- **Every registered generation has a thread in charge of it.** -/
theorem charge_pos_of_reach {ok : State R K E → Action R K E → Prop} {s : State R K E}
    (hr : Reach (step cfg) ok State.new s) (hg : s.mem.taskId g ≠ none) :
    0 < s.total (Pc.charge g) := by
  revert hg
  refine hr.invariant_of_reach (fun s => s.mem.taskId g ≠ none → 0 < s.total (Pc.charge g))
    (fun h => absurd rfl h) ?_
  intro s a s' hs ih _ h
  have hk := (known_of_reach hs).2
  refine total_step (Pc.charge g) (fun m n => m.taskId g ≠ none → 0 < n) h ?_ ?_ ?_ ?_ ?_
  · rintro t p k - rfl - hn
    refine (wp_tends (g := g) (hk t)).mono fun m p' c ht hg => ?_
    obtain ⟨hle, hnew⟩ := ht hg
    by_cases h0 : s.mem.taskId g = none
    · have := hnew h0
      omega
    · have := ih h0
      omega
  · rintro t p p' k hj - hn hg
    have hle : p.charge g ≤ p'.charge g := by cases hj <;> exact Nat.le_refl _
    have := ih hg
    omega
  · rintro c m p - hc hg
    have := ih (by cases hc <;> exact hg)
    omega
  · exact fun _ _ _ hg => ih hg
  · rintro m c hh hg
    have := ih (by cases hh <;> exact hg)
    omega

/-- The registered generation a call of `create` is in charge of, with its id. -/
def ResourceContext.CreatePc.registered? : CreatePc → Option (GenId × ℕ)
  | .register g (.dropSupervisor (some id)) | .insertLive g id | .spawnSupervisor g id =>
    some (g, id)
  | _ => none

/-- Who is in charge of a registered generation: its creator, or its supervising future. -/
theorem in_charge {ok : State R K E → Action R K E → Prop} {s : State R K E}
    (hr : Reach (step cfg) ok State.new s) (hg : s.mem.taskId g = some id) :
    ∃ u, (∃ q site p, s.pc u = .acquire q (.create site p) ∧ p.registered? = some (g, id)) ∨
      ∃ i site p, s.pc u = .supervise i g id site p := by
  obtain ⟨u, hu, hpos⟩ :=
    Pool.exists_of_total_pos (charge_pos_of_reach hr (hg ▸ Option.some_ne_none _))
  have hk := (known_of_reach hr).2 u
  refine ⟨u, ?_⟩
  revert hpos hk
  generalize s.pc u = p
  intro hpos hk
  have same {id' : ℕ} (h : s.mem.taskId g = some id') : id' = id := Option.some.inj (h.symm.trans hg)
  cases_type* Pc AcquirePc CreatePc
  all_goals try (exact absurd hpos (Nat.lt_irrefl 0))
  case supervise i x id' site p =>
    obtain rfl := eq_of_isGen hpos
    obtain rfl := same hk.2.1
    exact .inr ⟨_, _, _, rfl⟩
  case acquire.create.register q site x p =>
    obtain rfl := eq_of_isGen hpos
    cases p
    case dropSupervisor o =>
      cases o
      · exact nomatch hk.2.symm.trans hg
      · obtain rfl := same hk.2
        exact .inl ⟨_, _, _, rfl, rfl⟩
    all_goals exact nomatch hk.2.symm.trans hg
  case acquire.create.spawnTask q site x =>
    obtain rfl := eq_of_isGen hpos
    exact nomatch hk.2.1.symm.trans hg
  case acquire.create.insertLive q site x id' | acquire.create.spawnSupervisor q site x id' =>
    obtain rfl := eq_of_isGen hpos
    obtain rfl := same hk.2
    exact .inl ⟨_, _, _, rfl, rfl⟩
  all_goals
    obtain rfl := eq_of_isGen hpos
    exact nomatch hk.2.symm.trans hg

/-! ## The supervisor table -/

/-- The supervising future has taken its id out of the table. -/
def ResourceContext.SupervisePc.removed : SupervisePc E → Bool
  | .finalize _ .lock | .finalize _ .remove => false
  | .finalize .. | .dropSender _ | .ended _ => true
  | _ => false

/-- A generation of which a creator is in charge is in the table; one of which a supervising
future is, until the future has called `task_finished`. -/
def Pc.Listed (m : Memory R K E) : Pc R K E → Prop
  | .acquire _ (.create _ p) => ForSome (fun e => (e.2, e.1) ∈ m.tasks) p.registered?
  | .supervise _ g id _ p => p.removed = false → (id, g) ∈ m.tasks
  | _ => True

/-- Nothing is in the table under the id of a supervising future that has called
`task_finished`. -/
def Pc.Unlisted (m : Memory R K E) : Pc R K E → Prop
  | .supervise _ _ id _ p => p.removed = true → ∀ e ∈ m.tasks, e.1 ≠ id
  | _ => True

/-- The executor drops a supervising future that has not been polled. -/
def DropsUnpolled (s : State R K E) (a : Action R K E) : Prop :=
  ∃ t i g id site, a = .dropSupervisor t ∧ s.pc t = .supervise i g id site .unpolled

theorem listed_run (hp : p.Listed m) :
    p.code.wp cfg t m fun m' p' c => p'.Listed m' ∧ ForSome (Pc.Listed m') c := by
  cases p using Pc.points
  case acquire_create_register_insert => exact ⟨List.mem_cons_self, trivial⟩
  case supervise_finalize_remove => exact ⟨nofun, trivial⟩
  case acquire_create_spawnSupervisor_none | acquire_create_spawnSupervisor_some =>
    exact ⟨trivial, fun _ => hp⟩
  case acquire_guard_remove_entry | supervise_cleanup_entry =>
    refine ⟨⟨hp, trivial⟩, fun _ => ⟨fun _ _ => ?_, fun _ => ⟨hp, trivial⟩⟩⟩
    dsimp only
    split <;> exact ⟨hp, trivial⟩
  all_goals
    repeat' first
      | exact trivial
      | exact hp
      | apply And.intro
      | intro _

/-- The steps of a supervising future keep what it has taken out of the table out of it. -/
theorem unlisted_run (i : Ident R K) (g : GenId) (id : ℕ) (site : Option Site) (p : SupervisePc E)
    (hp : (Pc.supervise i g id site p).Unlisted m) :
    (Pc.supervise i g id site p).code.wp cfg t m fun m' p' _ => p'.Unlisted m' := by
  cases site, p using SupervisePc.points
  case finalize_remove => exact fun _ e he => of_decide_eq_true (List.mem_filter.mp he).2
  case cleanup_entry =>
    refine ⟨hp, fun _ => ⟨fun _ _ => ?_, fun _ => hp⟩⟩
    dsimp only
    split <;> exact hp
  all_goals
    repeat' first
      | exact trivial
      | exact hp
      | apply And.intro
      | intro _

/-- The id an instruction takes out of the table. -/
def Instr.unlists? {α : Type} : Instr R K E α → Option ℕ
  | .removeTask id _ => some id
  | _ => none

omit [DecidableEq R] [DecidableEq K] in
theorem unlists_of_code (h : p.code.unlists? = some id) :
    ∃ i g site exit, p = .supervise i g id site (.finalize exit .remove) := by
  revert h
  cases p using Pc.points
  all_goals
    intro h
    cases h
  all_goals exact ⟨_, _, _, _, rfl⟩

theorem wp_listed {α : Type} {ins : Instr R K E α} {e : ℕ × GenId} (h : ins.unlists? ≠ some e.1)
    (he : e ∈ m.tasks) : ins.wp cfg t m fun m' _ _ => e ∈ m'.tasks := by
  cases ins
  case insertTask => exact List.mem_cons_of_mem _ he
  case removeTask id k =>
    exact List.mem_filter.mpr ⟨he, decide_eq_true fun e => h (congrArg some e.symm)⟩
  all_goals
    repeat' first
      | exact trivial
      | apply And.intro
      | intro _
      | exact he

theorem wp_unlisted {α : Type} (ins : Instr R K E α) :
    ins.wp cfg t m fun m' _ _ => ∀ e ∈ m'.tasks, e ∈ m.tasks ∨ e.1 = m.nextTask := by
  cases ins
  case insertTask =>
    intro e he
    rcases List.mem_cons.mp he with rfl | he
    · exact .inr rfl
    · exact .inl he
  case removeTask => exact fun e he => .inl (List.mem_filter.mp he).1
  all_goals
    repeat' first
      | exact trivial
      | exact fun _ => Or.inl
      | apply And.intro
      | intro _

section

variable {ok : State R K E → Action R K E → Prop} {s s' : State R K E} {a : Action R K E}

/-- An id that has been taken out of the table does not come back. -/
theorem unlisted_step (h : step cfg s a = some s') (hid : id < s.mem.nextTask)
    (ht : ∀ e ∈ s.mem.tasks, e.1 ≠ id) : ∀ e ∈ s'.mem.tasks, e.1 ≠ id := by
  intro e he
  have hold : e ∈ s.mem.tasks ∨ e.1 = s.mem.nextTask := by
    refine mem_step (fun m => ∀ e ∈ m.tasks, e ∈ s.mem.tasks ∨ e.1 = s.mem.nextTask) h
      (fun _ => .inl) ?_ ?_ ?_ ?_ e he
    · exact fun t p _ _ _ => wp_unlisted _
    · rintro c m p - hc
      cases hc <;> exact fun _ => .inl
    · exact fun _ _ _ _ => .inl
    · rintro m c hh
      cases hh <;> exact fun _ => .inl
  rcases hold with he | he
  · exact ht e he
  · omega

/-- Nobody but the thread in charge of a generation takes its id out of the table. -/
theorem listed_step (hs : Reach (step cfg) ok State.new s) (h : step cfg s a = some s') {u : Tid}
    (hu : a.actor ≠ some u) (hc : 0 < (s.pc u).charge g) (hg : s.mem.taskId g = some id)
    (he : (id, g) ∈ s.mem.tasks) : (id, g) ∈ s'.mem.tasks := by
  obtain ⟨htab, hk⟩ := known_of_reach hs
  refine mem_step (fun m => (id, g) ∈ m.tasks) h he ?_ ?_ ?_ ?_
  · rintro t p hat rfl hr
    refine wp_listed (fun hcode => hu ?_) he
    obtain ⟨i, g', site, exit, hp⟩ := unlists_of_code hcode
    have hkt := hk t
    rw [hp] at hkt
    obtain rfl := htab.inj _ _ _ hkt.2.1 hg
    have hct : 0 < (s.pc t).charge g' := by rw [hp]; exact isGen_pos _
    have hlt : u < s.size :=
      lt_size_of_ne_idle (fresh_of_reach hs) fun e => by rw [e] at hc; exact Nat.lt_irrefl _ hc
    rw [hat, (charge_of_reach hs).eq hr.1 hlt hct hc]
  · rintro c m p - hc
    cases hc <;> exact he
  · exact fun _ _ _ => he
  · rintro m c hh
    cases hh <;> exact he

theorem Pc.Listed.stable (hs : Reach (step cfg) ok State.new s) (h : step cfg s a = some s')
    {u : Tid} (hu : a.actor ≠ some u) (hp : (s.pc u).Listed s.mem) : (s.pc u).Listed s'.mem := by
  obtain ⟨-, hk⟩ := known_of_reach hs
  have hk := hk u
  have keep {g : GenId} {id : ℕ} (hc : 0 < (s.pc u).charge g) (hg : s.mem.taskId g = some id)
      (he : (id, g) ∈ s.mem.tasks) := listed_step hs h hu hc hg he
  revert hp hk keep
  generalize s.pc u = p
  intro hp hk keep
  cases_type* Pc AcquirePc CreatePc
  case supervise i g id site p => exact fun hrem => keep (isGen_pos g) hk.2.1 (hp hrem)
  case acquire.create.insertLive | acquire.create.spawnSupervisor =>
    exact keep (isGen_pos _) hk.2 hp
  case acquire.create.register p =>
    cases p
    case dropSupervisor o =>
      cases o
      · trivial
      · exact keep (isGen_pos _) hk.2 hp
    all_goals trivial
  all_goals trivial

/-- **The supervisor table.** -/
theorem listed_of_reach (hr : Reach (step cfg) ok State.new s) (u : Tid) :
    (s.pc u).Listed s.mem := by
  revert u
  refine hr.invariant_of_reach (fun s => ∀ u, (s.pc u).Listed s.mem) (fun _ => trivial) ?_
  intro s a s' hs ih ha h
  refine forall_pc_step (fun m _ p => p.Listed m) h ih (fun u hu => (ih u).stable hs h hu)
    (fun t p _ _ _ hp => listed_run hp) ?_ ?_ ?_
  · rintro t p p' hj hp - hl
    cases hj
    case unpolled => exact nofun
    all_goals exact hl
  · rintro c m p rfl hc
    cases hc <;> trivial
  · rintro m c hh
    cases hh
    trivial

/-- What has been taken out of the table stays out, and unless the executor drops an unpolled
supervising future, every one that ends takes its id out. -/
theorem unlisted_of_reach (hok : ∀ s a, ok s a → ¬ DropsUnpolled s a)
    (hr : Reach (step cfg) ok State.new s) (u : Tid) : (s.pc u).Unlisted s.mem := by
  revert u
  refine hr.invariant_of_reach (fun s => ∀ u, (s.pc u).Unlisted s.mem) (fun _ => trivial) ?_
  intro s a s' hs ih ha h
  refine forall_supervise_step (fun m p => p.Unlisted m) (fun m p hp => ?_) h ih (fun u hu => ?_)
    (fun _ _ _ _ _ _ => nofun) (fun t i g id site p _ _ hp => unlisted_run i g id site p hp) ?_
  · cases p with
    | supervise => cases hp
    | _ => trivial
  · obtain ⟨htab, hk⟩ := known_of_reach hs
    have hk := hk u
    have hp := ih u
    revert hp hk
    generalize s.pc u = p
    intro hk hp
    cases p with
    | supervise => exact fun hrem => unlisted_step h (htab.bound _ _ hk.2.1) (hp hrem)
    | _ => trivial
  · rintro t p p' hj hp - hl
    cases hj
    case unpolled => exact (hok s _ ha ⟨_, _, _, _, _, rfl, hp⟩).elim
    all_goals exact hl

/-- A registered generation is in the table, or its supervising future has taken it out. -/
theorem listed_or_removed (hr : Reach (step cfg) ok State.new s) (hg : s.mem.taskId g = some id) :
    (id, g) ∈ s.mem.tasks ∨
      ∃ u i site p, s.pc u = .supervise i g id site p ∧ p.removed = true := by
  obtain ⟨u, ⟨q, site, p, hp, hreg⟩ | ⟨i, site, p, hp⟩⟩ := in_charge hr hg
  · have hl := listed_of_reach hr u
    rw [hp] at hl
    have hl : ForSome (fun e => (e.2, e.1) ∈ s.mem.tasks) p.registered? := hl
    rw [hreg] at hl
    exact .inl hl
  · have hl := listed_of_reach hr u
    rw [hp] at hl
    cases hrem : p.removed with
    | false => exact .inl (hl hrem)
    | true => exact .inr ⟨u, i, site, p, hp, hrem⟩

end

/-! ## A terminated domain -/

/-- A domain terminates when its table is empty, and only one that accepts adds to it. -/
def Instr.Terminates {α : Type} (m : Memory R K E) : Instr R K E α → Prop
  | .storeTerminated _ => m.tasks = []
  | .insertTask .. => m.Accepting
  | _ => True

omit [DecidableEq R] [DecidableEq K] in
theorem terminates_of_agrees (h : p.Agrees m) : p.code.Terminates m := by
  cases p using Pc.points
  case acquire_create_register_insert => exact h
  case supervise_finalize_storeTerminated | cancel_storeTerminated
      | shutdown_cancel_storeTerminated | terminate_cancel_storeTerminated
      | terminate_shutdown_cancel_storeTerminated => exact h.2
  all_goals trivial

theorem wp_terminated {α : Type} {ins : Instr R K E α} (hi : ins.Terminates m)
    (h : m.phase = .terminated → m.tasks = []) :
    ins.wp cfg t m fun m' _ _ => m'.phase = .terminated → m'.tasks = [] := by
  cases ins
  case storeTerminated => exact fun _ => hi
  case insertTask => exact fun ht => absurd hi (not_accepting_of_terminated ht)
  case removeTask =>
    intro ht
    show m.tasks.filter _ = []
    rw [h ht]
    rfl
  case exchangeShuttingDown => exact ⟨fun _ ht => (nomatch ht), fun _ => h⟩
  all_goals
    repeat' first
      | exact trivial
      | exact h
      | apply And.intro
      | intro _

/-- A terminated domain supervises nothing. -/
theorem terminated_of_reach {ok : State R K E → Action R K E → Prop} {s : State R K E}
    (hr : Reach (step cfg) ok State.new s) : s.mem.phase = .terminated → s.mem.tasks = [] := by
  refine hr.invariant_of_reach (fun s => s.mem.phase = .terminated → s.mem.tasks = [])
    (fun h => nomatch h) ?_
  intro s a s' hs hm _ h
  refine mem_step (fun m => m.phase = .terminated → m.tasks = []) h hm ?_ ?_ ?_ ?_
  · rintro t p - rfl -
    exact wp_terminated (terminates_of_agrees ((agrees_of_reach hs).2 t)) hm
  · rintro c m p - hc
    cases hc <;> exact hm
  · exact fun _ _ _ => hm
  · rintro m c hh
    cases hh <;> exact hm

/-! ## Active controls -/

/-- The generation an instruction activates. -/
def Instr.activates? {α : Type} : Instr R K E α → Option GenId
  | .exchangeActive g _ => some g
  | _ => none

omit [DecidableEq R] [DecidableEq K] in
theorem activate_of_code (h : p.code.activates? = some g) :
    ∃ q site, p = .acquire q (.create site (.register g .activate)) := by
  revert h
  cases p using Pc.points
  all_goals
    intro h
    cases h
  all_goals
    exact ⟨_, _, rfl⟩

theorem wp_active {α : Type} {ins : Instr R K E α} (h : ins.activates? ≠ some g) :
    ins.wp cfg t m fun m' _ _ => m'.control g = .active → m.control g = .active := by
  have ne {x : GenId} (hx : some x ≠ some g) : g ≠ x := fun e => hx (congrArg some e.symm)
  cases ins
  case exchangeActive x k =>
    exact ⟨fun _ => ((update_of_ne (ne h) _ m.control).symm.trans ·), fun _ => id⟩
  case exchangeCancelling x current k =>
    have hx (he : update m.control x .cancelling g = .active) : m.control g = .active := by
      by_cases hgx : g = x
      · rw [hgx, update_self] at he
        cases he
      · rwa [update_of_ne hgx] at he
    exact ⟨fun _ => hx, fun _ => id, fun _ => id, fun _ => id, fun _ => id⟩
  case storeFinished x k =>
    intro he
    have he' : update m.control x .finished g = .active := he
    by_cases hgx : g = x
    · rw [hgx, update_self] at he'
      cases he'
    · rwa [update_of_ne hgx] at he'
  all_goals
    repeat' first
      | exact trivial
      | exact id
      | apply And.intro
      | intro _

/-- Whether a thread has activated `g` and not yet put it into the table. -/
def Pc.activating (g : GenId) : Pc R K E → ℕ
  | .acquire _ (.create _ (.register x .insert)) => isGen g (some x)
  | _ => 0

omit [DecidableEq R] [DecidableEq K] in
theorem activating_cases (h : 0 < p.activating g) :
    ∃ q site, p = .acquire q (.create site (.register g .insert)) := by
  unfold Pc.activating at h
  split at h
  · obtain rfl := eq_of_isGen h
    exact ⟨_, _, rfl⟩
  · exact absurd h (Nat.lt_irrefl 0)

/-- From `p` a thread goes on at `p'`: a control that becomes active is about to be put into the
table, and it is. -/
def Activates (g : GenId) (m : Memory R K E) (p : Pc R K E) (m' : Memory R K E) (p' : Pc R K E) :
    Prop :=
  (m'.control g = .active → m.control g = .active ∨ 0 < p'.activating g) ∧
    (p.activating g = 0 ∨ m'.taskId g ≠ none)

theorem wp_activates : p.code.wp cfg t m fun m' p' _ => Activates g m p m' p' := by
  by_cases hcode : p.code.activates? = some g
  · obtain ⟨q, site, rfl⟩ := activate_of_code hcode
    exact ⟨fun _ => ⟨fun _ => .inr (isGen_pos g), .inl rfl⟩, fun _ => ⟨.inl, .inl rfl⟩⟩
  · by_cases hpos : p.activating g = 0
    · exact (wp_active hcode).mono fun _ _ _ h => ⟨fun hg => .inl (h hg), .inl hpos⟩
    · obtain ⟨q, site, rfl⟩ := activating_cases (Nat.pos_of_ne_zero hpos)
      refine ⟨.inl, .inr ?_⟩
      show update m.taskId g (some m.nextTask) g ≠ none
      rw [update_self]
      exact Option.some_ne_none _

/-- An active control is registered, or about to be. -/
theorem activating_of_reach {ok : State R K E → Action R K E → Prop} {s : State R K E}
    (hr : Reach (step cfg) ok State.new s) (hg : s.mem.control g = .active) :
    s.mem.taskId g ≠ none ∨
      ∃ u q site, s.pc u = .acquire q (.create site (.register g .insert)) := by
  have hpos : s.mem.taskId g ≠ none ∨ 0 < s.total (Pc.activating g) := by
    revert hg
    refine hr.invariant (fun s => s.mem.control g = .active →
      s.mem.taskId g ≠ none ∨ 0 < s.total (Pc.activating g)) (fun h => nomatch h) ?_
    intro s a s' ih _ h
    refine total_step (Pc.activating g) (fun m n => Grows s.mem m → m.control g = .active →
      m.taskId g ≠ none ∨ 0 < n) h ?_ ?_ ?_ ?_ ?_ (grows_step h)
    · rintro t p k - rfl - hk
      refine (wp_activates (g := g)).mono fun m p' c ha hgrow hg => ?_
      rcases ha.1 hg with hg' | hpos
      · rcases ih hg' with hr' | hpos
        · exact .inl (hgrow.registered g hr')
        · exact ha.2.symm.imp_right fun h0 => by omega
      · exact .inr (by omega)
    · rintro t p p' k hj - hk - hg
      have hle : p.activating g ≤ p'.activating g := by cases hj <;> exact Nat.le_refl _
      exact (ih hg).imp_right fun h => by omega
    · rintro c m p - hc - hg
      cases hc <;> exact (ih hg).imp_right fun h => by omega
    · exact fun _ _ _ _ hg => ih hg
    · rintro m c hh - hg
      cases hh <;> exact (ih hg).imp_right fun h => by omega
  refine hpos.imp_right fun hpos => ?_
  obtain ⟨u, -, hpos⟩ := Pool.exists_of_total_pos hpos
  exact ⟨u, activating_cases hpos⟩

/-! ## Supervising futures that run to their end -/

/-- A supervising future that takes its id out of the table has run to that point. -/
def Pc.Ran : Pc R K E → Prop
  | .supervise _ _ _ _ (.finalize exit _) | .supervise _ _ _ _ (.dropSender exit)
  | .supervise _ _ _ _ (.ended exit) => exit = .ran
  | _ => True

section

variable {ok : State R K E → Action R K E → Prop} {s : State R K E}
  (hok : ∀ s a, ok s a → a.KeepsSupervisor) (hr : Reach (step cfg) ok State.new s)
include hok hr

theorem ran_of_reach (u : Tid) : (s.pc u).Ran := by
  revert u
  refine hr.invariant (fun s => ∀ u, (s.pc u).Ran) (fun _ => trivial) ?_
  intro s a s' ih ha h
  refine forall_supervise_step (fun _ p => p.Ran) ?_ h ih (fun u _ => ih u)
    (fun _ _ _ _ _ _ => trivial) ?_ ?_
  · rintro m p hp
    cases p
    case supervise => cases hp
    all_goals trivial
  · rintro t i g id site p - - hp
    cases site, p using SupervisePc.points
    case cleanup_entry =>
      refine ⟨trivial, fun _ => ⟨fun _ _ => ?_, fun _ => trivial⟩⟩
      dsimp only
      split <;> trivial
    all_goals
      repeat' first
        | exact trivial
        | exact rfl
        | exact hp
        | apply And.intro
        | intro _
  · rintro t p p' hj - hsup -
    cases hj
    case unpolled | join | finish | publish => cases hok _ _ ha
    all_goals cases hsup

omit [DecidableEq R] [DecidableEq K] hr in
theorem keeps_polled (s : State R K E) (a : Action R K E) (h : ok s a) : ¬ DropsUnpolled s a := by
  rintro ⟨t, i, g, id, site, rfl, -⟩
  cases hok _ _ h

/-- The generation of a supervising future that has taken its id out of the table is finished. -/
theorem finished_of_removed {u : Tid} {i : Ident R K} {site : Option Site} {p : SupervisePc E}
    (hp : s.pc u = .supervise i g id site p) (hrem : p.removed = true) :
    s.mem.control g = .finished := by
  have hran := ran_of_reach hok hr u
  have hj := joined_of_reach hr u
  rw [hp] at hran hj
  cases p
  case finalize exit q =>
    obtain rfl : exit = .ran := hran
    exact hj.2
  case dropSender exit =>
    obtain rfl : exit = .ran := hran
    exact hj.2
  case ended exit =>
    obtain rfl : exit = .ran := hran
    exact hj.2
  all_goals cases hrem

/-- An active control is in the table, or about to be put there. -/
theorem listed_of_active (hg : s.mem.control g = .active) :
    (∃ id, (id, g) ∈ s.mem.tasks) ∨
      ∃ u q site, s.pc u = .acquire q (.create site (.register g .insert)) := by
  refine (activating_of_reach hr hg).imp_left fun hreg => ?_
  obtain ⟨id, hid⟩ := Option.ne_none_iff_exists'.mp hreg
  refine ⟨id, (listed_or_removed hr hid).resolve_right ?_⟩
  rintro ⟨u, i, site, p, hp, hrem⟩
  have := finished_of_removed hok hr hp hrem
  rw [hg] at this
  cases this

end

/-- A control becomes active only while the domain accepts. -/
theorem active_step {ok : State R K E → Action R K E → Prop} {s s' : State R K E}
    {a : Action R K E} (hs : Reach (step cfg) ok State.new s) (h : step cfg s a = some s')
    (ha : ¬ s.mem.Accepting) : s'.mem.control g = .active → s.mem.control g = .active := by
  refine mem_step (fun m => m.control g = .active → s.mem.control g = .active) h id ?_ ?_ ?_ ?_
  · rintro t p - rfl -
    refine wp_active fun hcode => ha ?_
    obtain ⟨q, site, hp⟩ := activate_of_code hcode
    have := (agrees_of_reach hs).2 t
    rw [hp] at this
    exact this
  · rintro c m p - hc
    cases hc <;> exact id
  · exact fun _ _ _ => id
  · rintro m c hh
    cases hh <;> exact id

end Resourcery
