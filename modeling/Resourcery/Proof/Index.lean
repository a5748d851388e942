import Resourcery.Proof.Supervision

/-!
# The live index

A registered generation is in the live index of its type, under its id and there only, from the end
of its creation until its supervising future takes it out.
-/

namespace Resourcery

open Interleaving Function Transition ResourceContext

variable {R K E : Type}

/-- What is in the live index of a type has its id and that type. -/
def Memory.Indexed (m : Memory R K E) : Prop :=
  ∀ r, ∀ e ∈ m.live r, m.taskId e.2 = some e.1 ∧ ∃ i, m.ident e.2 = some i ∧ i.ty = r

/-- The supervising future has taken its generation out of the live index. -/
def ResourceContext.SupervisePc.unindexed : SupervisePc E → Bool
  | .finalize .ran _ | .dropSender .ran | .ended .ran => true
  | _ => false

/-- A generation is in the live index when its creator is about to spawn its supervising future, and
until the future has taken it out. -/
def Pc.Indexed (m : Memory R K E) : Pc R K E → Prop
  | .acquire q (.create _ (.spawnSupervisor g id)) => (id, g) ∈ m.live q.ident.ty
  | .supervise i g id _ p =>
    match p.unindexed with
    | false => (id, g) ∈ m.live i.ty
    | true => ∀ r, ∀ e ∈ m.live r, e.1 ≠ id
  | _ => True

variable {cfg : Config R K} {t : Tid} {m m' : Memory R K E} {p : Pc R K E} {g : GenId} {id : ℕ}

/-! ## What is in the index -/

/-- A generation is put into the index of its type under its id. -/
def Instr.Indexes {α : Type} (m : Memory R K E) : Instr R K E α → Prop
  | .insertLive r id g _ => m.taskId g = some id ∧ ∃ i, m.ident g = some i ∧ i.ty = r
  | _ => True

theorem indexes_of_known (hk : p.Known m) : p.code.Indexes m := by
  cases p using Pc.points
  case acquire_create_insertLive => exact ⟨hk.2, _, hk.1.2.1, rfl⟩
  all_goals trivial

variable [DecidableEq R] [DecidableEq K]

theorem wp_indexed {α : Type} {ins : Instr R K E α} (hi : ins.Indexes m) (h : m.Indexed) :
    ins.wp cfg t m fun m' _ _ =>
      ∀ r, ∀ e ∈ m'.live r, m.taskId e.2 = some e.1 ∧ ∃ i, m.ident e.2 = some i ∧ i.ty = r := by
  cases ins
  case insertLive r id g k =>
    intro r' e he
    have he' : e ∈ update m.live r ((id, g) :: (m.live r).filter (·.1 ≠ id)) r' := he
    by_cases hr : r' = r
    · subst hr
      rw [update_self] at he'
      rcases List.mem_cons.mp he' with rfl | he'
      · exact hi
      · exact h _ e (List.mem_filter.mp he').1
    · rw [update_of_ne hr] at he'
      exact h _ e he'
  case removeLive r id k =>
    intro r' e he
    have he' : e ∈ update m.live r ((m.live r).filter (·.1 ≠ id)) r' := he
    by_cases hr : r' = r
    · subst hr
      rw [update_self] at he'
      exact h _ e (List.mem_filter.mp he').1
    · rw [update_of_ne hr] at he'
      exact h _ e he'
  all_goals
    repeat' first
      | exact trivial
      | exact h
      | apply And.intro
      | intro _

theorem wp_taskId {α : Type} {ins : Instr R K E α} (hi : ins.Touching m)
    (hg : m.taskId g = some id) : ins.wp cfg t m fun m' _ _ => m'.taskId g = some id := by
  cases ins
  case insertTask x k =>
    refine (update_of_ne ?_ _ _).trans hg
    rintro rfl
    exact nomatch hi.2.symm.trans hg
  all_goals
    repeat' first
      | exact trivial
      | exact hg
      | apply And.intro
      | intro _

section

variable {ok : State R K E → Action R K E → Prop} {s s' : State R K E} {a : Action R K E}

/-- A generation keeps the id it was registered under. -/
theorem taskId_step (hs : Reach (step cfg) ok State.new s) (h : step cfg s a = some s')
    (hg : s.mem.taskId g = some id) : s'.mem.taskId g = some id := by
  obtain ⟨htab, hk⟩ := known_of_reach hs
  refine mem_step (fun m => m.taskId g = some id) h hg ?_ ?_ ?_ ?_
  · rintro t p - rfl -
    exact wp_taskId (touching_of_known htab (hk t)) hg
  · rintro c m p - hc
    cases hc <;> exact hg
  · exact fun _ _ _ => hg
  · rintro m c hh
    cases hh <;> exact hg

theorem taskId_of_reach (hs : Reach (step cfg) ok State.new s) (hr : Reach (step cfg) ok s s')
    (hg : s.mem.taskId g = some id) : s'.mem.taskId g = some id :=
  hr.invariant_of_reach (fun s => s.mem.taskId g = some id) hg
    fun _ _ _ hu ih _ h => taskId_step (hs.trans hu) h ih

theorem indexed_of_reach (hr : Reach (step cfg) ok State.new s) : s.mem.Indexed := by
  refine hr.invariant_of_reach (fun s => s.mem.Indexed) (fun _ _ h => nomatch h) ?_
  intro s a s' hs hm _ h r e he
  obtain ⟨htab, hk⟩ := known_of_reach hs
  have hold : s.mem.taskId e.2 = some e.1 ∧ ∃ i, s.mem.ident e.2 = some i ∧ i.ty = r := by
    refine mem_step (fun m => ∀ r, ∀ e ∈ m.live r, s.mem.taskId e.2 = some e.1 ∧
      ∃ i, s.mem.ident e.2 = some i ∧ i.ty = r) h hm ?_ ?_ ?_ ?_ r e he
    · rintro t p - rfl -
      exact wp_indexed (indexes_of_known (hk t)) hm
    · rintro c m p - hc
      cases hc <;> exact hm
    · exact fun _ _ _ => hm
    · rintro m c hh
      cases hh <;> exact hm
  obtain ⟨hid, i, hi, hr⟩ := hold
  have hlt := htab.lt_nextGen (hid ▸ Option.some_ne_none _)
  exact ⟨taskId_step hs h hid, i, ((grows_step h).ident _ hlt).trans hi, hr⟩

/-! ## How long a generation is in the index -/

omit [DecidableEq R] [DecidableEq K] in
/-- Nothing under an id other than that of `g` is `g`. -/
theorem not_mem_filter {es : List (ℕ × GenId)} {e : ℕ × GenId} (he : e ∈ es.filter (·.1 ≠ id)) :
    e.1 ≠ id :=
  of_decide_eq_true (List.mem_filter.mp he).2

theorem indexedAt_run (hm : m.Indexed) (htab : Tables m) (hk : p.Known m) (hp : p.Indexed m) :
    p.code.wp cfg t m fun m' p' c => p'.Indexed m' ∧ ForSome (Pc.Indexed m') c := by
  cases p using Pc.points
  case' supervise_finalize_lock exit | supervise_finalize_remove exit
    | supervise_finalize_accepting exit | supervise_finalize_isEmpty exit
    | supervise_finalize_storeTerminated exit | supervise_finalize_dropSupervisor_false exit
    | supervise_finalize_dropSupervisor_true exit | supervise_finalize_notify exit
    | supervise_dropSender exit => cases exit
  case acquire_create_insertLive q site g id =>
    refine ⟨?_, trivial⟩
    show (id, g) ∈ update m.live q.ident.ty _ q.ident.ty
    rw [update_self]
    exact List.mem_cons_self
  case supervise_removeLive i g id site =>
    refine ⟨fun r e he hid => ?_, trivial⟩
    have he' : e ∈ update m.live i.ty ((m.live i.ty).filter (·.1 ≠ id)) r := he
    by_cases hr : r = i.ty
    · rw [hr, update_self] at he'
      exact not_mem_filter he' hid
    · rw [update_of_ne hr] at he'
      obtain ⟨hide, j, hj, hjr⟩ := hm r e he'
      rw [hid] at hide
      rw [htab.inj _ _ _ hide hk.2.1, hk.1.2.1] at hj
      cases hj
      exact hr hjr.symm
  case acquire_guard_remove_entry | supervise_cleanup_entry =>
    refine ⟨⟨hp, trivial⟩, fun _ => ⟨fun _ _ => ?_, fun _ => ⟨hp, trivial⟩⟩⟩
    dsimp only
    split <;> exact ⟨hp, trivial⟩
  all_goals
    repeat' first
      | exact trivial
      | exact hp
      | apply And.intro
      | intro _

/-- The ids an instruction writes to the live index. -/
def Instr.indexes? {α : Type} : Instr R K E α → Option ℕ
  | .insertLive _ id _ _ | .removeLive _ id _ => some id
  | _ => none

omit [DecidableEq R] [DecidableEq K] in
/-- Only the thread in charge of a generation writes to the live index under its id. -/
theorem charge_of_indexes (hk : p.Known m) (h : p.code.indexes? = some id) :
    ∃ g, 0 < p.charge g ∧ m.taskId g = some id := by
  revert h
  cases p using Pc.points
  all_goals
    intro h
    cases h
  case acquire_create_insertLive => exact ⟨_, isGen_pos _, hk.2⟩
  case supervise_removeLive => exact ⟨_, isGen_pos _, hk.2.1⟩

theorem wp_live {α : Type} {ins : Instr R K E α} (h : ins.indexes? ≠ some id) (x : GenId) (r : R) :
    ins.wp cfg t m fun m' _ _ => (id, x) ∈ m'.live r ↔ (id, x) ∈ m.live r := by
  cases ins
  case insertLive r' id' g k =>
    have hne : id ≠ id' := fun e => h (congrArg some e.symm)
    show (id, x) ∈ update m.live r' ((id', g) :: (m.live r').filter (·.1 ≠ id')) r ↔ _
    by_cases hr : r = r'
    · subst hr
      rw [update_self, List.mem_cons, List.mem_filter]
      refine ⟨fun he => ?_, fun he => .inr ⟨he, decide_eq_true hne⟩⟩
      rcases he with he | he
      · exact absurd (congrArg Prod.fst he) hne
      · exact he.1
    · rw [update_of_ne hr]
  case removeLive r' id' k =>
    have hne : id ≠ id' := fun e => h (congrArg some e.symm)
    show (id, x) ∈ update m.live r' ((m.live r').filter (·.1 ≠ id')) r ↔ _
    by_cases hr : r = r'
    · subst hr
      rw [update_self, List.mem_filter]
      exact ⟨fun he => he.1, fun he => ⟨he, decide_eq_true hne⟩⟩
    · rw [update_of_ne hr]
  all_goals
    repeat' first
      | exact trivial
      | exact Iff.rfl
      | apply And.intro
      | intro _

/-- Other threads leave what the live index holds under the id of a generation to the thread in
charge of it. -/
theorem live_step_iff (hs : Reach (step cfg) ok State.new s) (h : step cfg s a = some s') {u : Tid}
    (hu : a.actor ≠ some u) (hc : 0 < (s.pc u).charge g) (hg : s.mem.taskId g = some id)
    (x : GenId) (r : R) : (id, x) ∈ s'.mem.live r ↔ (id, x) ∈ s.mem.live r := by
  obtain ⟨htab, hk⟩ := known_of_reach hs
  refine mem_step (fun m => (id, x) ∈ m.live r ↔ (id, x) ∈ s.mem.live r) h Iff.rfl ?_ ?_ ?_ ?_
  · rintro t p hat rfl hr
    refine wp_live (fun hcode => hu ?_) x r
    obtain ⟨g', hct, hid⟩ := charge_of_indexes (hk t) hcode
    obtain rfl := htab.inj _ _ _ hid hg
    have hlt : u < s.size :=
      lt_size_of_ne_idle (fresh_of_reach hs) fun e => by rw [e] at hc; exact Nat.lt_irrefl _ hc
    rw [hat, (charge_of_reach hs).eq hr.1 hlt hct hc]
  · rintro c m p - hc
    cases hc <;> exact Iff.rfl
  · exact fun _ _ _ => Iff.rfl
  · rintro m c hh
    cases hh <;> exact Iff.rfl

theorem Pc.Indexed.stable (hs : Reach (step cfg) ok State.new s) (h : step cfg s a = some s')
    {u : Tid} (hu : a.actor ≠ some u) (hp : (s.pc u).Indexed s.mem) : (s.pc u).Indexed s'.mem := by
  have hk := (known_of_reach hs).2 u
  have same {g : GenId} {id : ℕ} (hc : 0 < (s.pc u).charge g) (hg : s.mem.taskId g = some id) :=
    live_step_iff hs h hu hc hg
  revert hp hk same
  generalize s.pc u = p
  intro hp hk same
  cases_type* Pc AcquirePc CreatePc
  case acquire.create.spawnSupervisor => exact (same (isGen_pos _) hk.2 _ _).mpr hp
  case supervise i g id site p =>
    unfold Pc.Indexed at hp ⊢
    dsimp only at hp ⊢
    split at hp
    · exact (same (isGen_pos g) hk.2.1 _ _).mpr hp
    · rintro r ⟨id', x⟩ he rfl
      exact hp r _ ((same (isGen_pos g) hk.2.1 x r).mp he) rfl
  all_goals trivial

/-- **The live index.** -/
theorem indexedAt_of_reach (hr : Reach (step cfg) ok State.new s) (u : Tid) :
    (s.pc u).Indexed s.mem := by
  revert u
  refine hr.invariant_of_reach (fun s => ∀ u, (s.pc u).Indexed s.mem) (fun _ => trivial) ?_
  intro s a s' hs ih _ h
  obtain ⟨htab, hk⟩ := known_of_reach hs
  refine forall_pc_step (fun m _ p => p.Indexed m) h ih (fun u hu => (ih u).stable hs h hu)
    ?_ ?_ ?_ ?_
  · rintro t p - rfl - hp
    exact indexedAt_run (indexed_of_reach hs) htab (hk t) hp
  · rintro t p p' hj - - hp
    cases hj <;> exact hp
  · rintro c m p rfl hc
    cases hc <;> trivial
  · rintro m c hh
    cases hh
    trivial

end

end Resourcery
