import Resourcery.Proof.Completeness

/-!
# Accounting for supervising futures

Every id that is taken out of the supervisor table is taken out by the supervising future it was
given to, which does so once, unless it is dropped before its first poll: then nobody does. When
nobody is dropped like that, a domain whose supervising futures have all ended has an empty table,
and one that is shutting down has terminated and has told everybody who waits for it.
-/

namespace Resourcery

open Interleaving Function Transition ResourceContext

variable {R K E : Type}

/-! ## Settling the phase -/

namespace Domain

/-- A call of `cancel` is deciding under the supervisor lock whether the domain has terminated, and
tells it. -/
def CancelPc.settling : CancelPc → Bool
  | .token | .loadPhase | .collect | .storeTerminated | .notify => true
  | _ => false

@[inherit_doc CancelPc.settling]
def ShutdownPc.settling : ShutdownPc → Bool
  | .cancel p => p.settling
  | _ => false

@[inherit_doc CancelPc.settling]
def TerminatePc.settling : TerminatePc → Bool
  | .cancel p => p.settling
  | .shutdown p => p.settling
  | _ => false

/-- A call of `cancel` is about to notify. -/
def CancelPc.notifies : CancelPc → Bool
  | .notify => true
  | _ => false

@[inherit_doc CancelPc.notifies]
def ShutdownPc.notifies : ShutdownPc → Bool
  | .cancel p => p.notifies
  | _ => false

@[inherit_doc CancelPc.notifies]
def TerminatePc.notifies : TerminatePc → Bool
  | .cancel p => p.notifies
  | .shutdown p => p.notifies
  | _ => false

/-- A call of `task_finished` is about to notify. -/
def FinishedPc.notifies : FinishedPc → Bool
  | .dropSupervisor true | .notify => true
  | _ => false

end Domain

namespace Pc

@[inherit_doc Domain.CancelPc.settling]
def settling : Pc R K E → Bool
  | .cancel p => p.settling
  | .shutdown p => p.settling
  | .terminate p => p.settling
  | _ => false

/-- The thread has terminated the domain and is about to notify. -/
def notifies : Pc R K E → Bool
  | .cancel p => p.notifies
  | .shutdown p => p.notifies
  | .terminate p => p.notifies
  | .supervise _ _ _ _ (.finalize _ p) => p.notifies
  | _ => false

end Pc

/-- From `p` a thread goes on at `p'`: it holds the supervisor lock from the step that takes it to
the step that releases it. -/
def Supervised (m : Memory R K E) (p : Pc R K E) (m' : Memory R K E) (p' : Pc R K E) : Prop :=
  m'.supervisor ≠ none → p'.supervises = true ∨ p.supervises = false ∧ m.supervisor ≠ none

/-- From `p` a thread goes on at `p'`: one that terminates the domain goes on to notify. -/
def Announced (m : Memory R K E) (p : Pc R K E) (m' : Memory R K E) (p' : Pc R K E) : Prop :=
  m'.phase = .terminated → 0 < m'.quiescent ∨ p'.notifies = true ∨
    p.notifies = false ∧ m.phase = .terminated ∧ m'.quiescent = m.quiescent

section

variable {cfg : Config R K} {t : Tid} {m m' : Memory R K E} {p p' : Pc R K E}

theorem Supervised.of_eq (h : p.supervises = false) (hm : m'.supervisor = m.supervisor) :
    Supervised m p m' p' := fun hs => .inr ⟨h, hm ▸ hs⟩

theorem Supervised.held (h : p'.supervises = true) : Supervised m p m' p' := fun _ => .inl h

theorem Supervised.released (h : m'.supervisor = none) : Supervised m p m' p' :=
  fun hs => absurd h hs

theorem Announced.of_eq (h : p.notifies = false) (hm : m'.phase = m.phase)
    (hq : m'.quiescent = m.quiescent) : Announced m p m' p' :=
  fun ht => .inr (.inr ⟨h, hm ▸ ht, hq⟩)

theorem Announced.going (h : p'.notifies = true) : Announced m p m' p' := fun _ => .inr (.inl h)

theorem Announced.done (h : 0 < m'.quiescent) : Announced m p m' p' := fun _ => .inl h

theorem Announced.closing (h : m'.phase = .shuttingDown) : Announced m p m' p' :=
  fun ht => absurd (h.symm.trans ht) (by decide)

variable [DecidableEq R] [DecidableEq K]

theorem wp_supervised : p.code.wp cfg t m fun m' p' _ => Supervised m p m' p' := by
  cases p using Pc.points
  case acquire_guard_remove_entry | supervise_cleanup_entry =>
    exact ⟨.of_eq rfl rfl, fun _ => ⟨fun _ _ => .of_eq rfl rfl, fun _ => .of_eq rfl rfl⟩⟩
  all_goals
    repeat' first
      | exact trivial
      | exact .of_eq rfl rfl
      | exact .held rfl
      | exact .released rfl
      | apply And.intro
      | intro _

theorem wp_announced : p.code.wp cfg t m fun m' p' _ => Announced m p m' p' := by
  cases p using Pc.points
  case acquire_guard_remove_entry | supervise_cleanup_entry =>
    exact ⟨.of_eq rfl rfl rfl, fun _ =>
      ⟨fun _ _ => .of_eq rfl rfl rfl, fun _ => .of_eq rfl rfl rfl⟩⟩
  all_goals
    repeat' first
      | exact trivial
      | exact .of_eq rfl rfl rfl
      | exact .going rfl
      | exact .done (Nat.succ_pos m.quiescent)
      | exact .closing rfl
      | apply And.intro
      | intro _

end

/-! ## Counting -/

/-- The event is a step of `task_finished` that takes `id` out of the supervisor table. -/
def Removes (id : ℕ) : State R K E × Action R K E → Bool
  | (s, .run t _) => (s.pc t).code.unlists? = some id
  | _ => false

/-- The event is that the executor drops the supervising future of `id` before its first poll. -/
def Abandons (id : ℕ) : State R K E × Action R K E → Bool
  | (s, .dropSupervisor t) =>
    match s.pc t with
    | .supervise _ _ x _ .unpolled => x = id
    | _ => false
  | _ => false

/-- Whether the thread is the supervising future of `id` and past the removal. -/
def Pc.past (id : ℕ) : Pc R K E → ℕ
  | .supervise _ _ x _ p => if x = id ∧ p.removed = true then 1 else 0
  | _ => 0

variable {cfg : Config R K} {t : Tid} {m m' : Memory R K E} {p : Pc R K E} {g : GenId} {id : ℕ}

theorem dropsUnpolled_of_abandons {s : State R K E} {a : Action R K E}
    (h : Abandons id (s, a) = true) : DropsUnpolled s a := by
  cases a with
  | dropSupervisor t =>
    simp only [Abandons] at h
    split at h
    · rename_i heq
      exact ⟨t, _, _, _, _, rfl, heq⟩
    · cases h
  | _ => cases h

theorem past_of_not_supervising (h : p.isSupervising = false) : p.past id = 0 := by
  cases p with
  | supervise => cases h
  | _ => rfl

theorem past_child {c : Pc R K E} (h : (∃ g, c = .destructor g) ∨ ∃ q site g x,
    p = .acquire q (.create site (.spawnSupervisor g x)) ∧
      c = .supervise q.ident g x site .unpolled ∧ m' = m) : c.past id = 0 := by
  rcases h with ⟨x, rfl⟩ | ⟨q, site, g, x, -, rfl, -⟩
  · rfl
  · exact if_neg fun h => by cases h.2

variable [DecidableEq R] [DecidableEq K]

/-- A thread comes past a removal by removing. -/
theorem wp_past (id : ℕ) (p : Pc R K E) : p.code.wp cfg t m fun _ p' c =>
    p'.past id + (c.map (Pc.past id)).getD 0 =
      p.past id + (if p.code.unlists? = some id then 1 else 0) := by
  cases hsup : p.isSupervising with
  | false =>
    have hcode : p.code.unlists? ≠ some id := by
      intro h
      obtain ⟨i, g, site, exit, rfl⟩ := unlists_of_code h
      cases hsup
    rw [if_neg hcode, past_of_not_supervising hsup]
    refine (wp_supervises hsup).mono fun m' p' c hc => ?_
    rw [past_of_not_supervising hc.1]
    cases c with
    | none => rfl
    | some c => exact (Nat.zero_add _).trans (past_child hc.2)
  | true =>
    unfold Pc.isSupervising at hsup
    split at hsup
    case h_2 => cases hsup
    rename_i i g x site p
    cases site, p using SupervisePc.points
    case finalize_remove exit =>
      have h0 : (Pc.supervise i g x site (.finalize exit .remove) : Pc R K E).past id = 0 :=
        if_neg fun hp => by cases hp.2
      have h1 : (Pc.supervise i g x site (.finalize exit .accepting) : Pc R K E).past id =
          if x = id then 1 else 0 := if_congr (and_iff_left rfl) rfl rfl
      have hi : (if (Pc.supervise i g x site (.finalize exit .remove) : Pc R K E).code.unlists? =
          some id then 1 else 0) = if x = id then 1 else 0 := if_congr Option.some_inj rfl rfl
      show (Pc.supervise i g x site (.finalize exit .accepting) : Pc R K E).past id + 0 = _
      rw [h0, h1, hi, Nat.zero_add, Nat.add_zero]
    case cleanup_entry =>
      refine ⟨rfl, fun _ => ⟨fun _ _ => ?_, fun _ => rfl⟩⟩
      dsimp only
      split <;> rfl
    all_goals
      repeat' first
        | exact trivial
        | exact rfl
        | apply And.intro
        | intro _

section

variable {ok : State R K E → Action R K E → Prop} {s : State R K E}
  {es : List (State R K E × Action R K E)}

/-- **Accounting.** The futures that are past the removal of `id` are those that have removed it and
those that have been abandoned. -/
theorem removed_add_abandoned (id : ℕ) (h : History (step cfg) ok State.new es s) :
    es.countP (Removes id) + es.countP (Abandons id) = s.total (Pc.past id) := by
  refine h.invariant (fun es s => es.countP (Removes id) + es.countP (Abandons id) =
    s.total (Pc.past id)) rfl ?_
  rintro es s a s' - ih - h
  rw [List.countP_cons, List.countP_cons]
  refine total_exec (Pc.past id) (fun _ n => _ = n) h ?_ ?_ ?_ ?_ ?_
  · rintro t ch mv k rfl - hk he
    have hp := (wp_past id (s.pc t)).sound he
    have hr : (if Removes id (s, .run t ch) = true then 1 else 0) =
        if (s.pc t).code.unlists? = some id then 1 else 0 := by
      simp only [Removes, decide_eq_true_eq]
    have ha : (if Abandons id (s, .run t ch) = true then 1 else 0) = 0 := rfl
    omega
  · intro t p p' k hj hp hk
    cases hj
    case unpolled i g x site =>
      have h0 : (Pc.supervise i g x site .unpolled : Pc R K E).past id = 0 :=
        if_neg fun hp => by cases hp.2
      have h1 : (Pc.supervise i g x site (.dropSender .dropped) : Pc R K E).past id =
          if x = id then 1 else 0 := if_congr (and_iff_left rfl) rfl rfl
      have ha : (if Abandons id (s, .dropSupervisor t) = true then 1 else 0) =
          if x = id then 1 else 0 := by simp only [Abandons, hp, decide_eq_true_eq]
      have hr : (if Removes id (s, .dropSupervisor t) = true then 1 else 0) = 0 := rfl
      omega
    case join i g x site =>
      have ha : (if Abandons id (s, .dropSupervisor t) = true then 1 else 0) = 0 := by
        simp only [Abandons, hp, Bool.false_eq_true, if_false]
      have hr : (if Removes id (s, .dropSupervisor t) = true then 1 else 0) = 0 := rfl
      have h0 : (Pc.supervise i g x site .join : Pc R K E).past id = 0 :=
        if_neg fun hp => by cases hp.2
      have h1 : (Pc.supervise i g x site (.finalize .dropped .lock) : Pc R K E).past id = 0 :=
        if_neg fun hp => by cases hp.2
      omega
    all_goals exact ih.trans hk
  · rintro c m p rfl hc
    cases hc <;> exact ih
  · intro g st ht
    cases ht <;> exact ih
  · intro m c hh
    cases hh <;> exact ih

/-- One future at most is past the removal of the id of a generation: the one in charge of it. -/
theorem past_le_one (hr : Reach (step cfg) ok State.new s) (hg : s.mem.taskId g = some id) :
    s.total (Pc.past id) ≤ 1 := by
  refine (Pool.total_le_total fun u => ?_).trans ((charge_of_reach hr) g).1
  obtain ⟨htab, hk⟩ := known_of_reach hr
  have hk := hk u
  revert hk
  generalize s.pc u = p
  intro hk
  cases p with
  | supervise i x y site p =>
    by_cases hy : y = id
    · obtain rfl := hy
      obtain rfl := htab.inj _ _ _ hk.2.1 hg
      show (if _ then 1 else 0) ≤ isGen x (some x)
      rw [isGen_self]
      split <;> decide
    · exact (if_neg fun h => hy h.1).trans_le (Nat.zero_le _)
  | _ => exact Nat.zero_le _

/-! ## States in which all supervising futures have ended -/

/-- The supervising future of every registered generation has ended. -/
def State.Unsupervised (s : State R K E) : Prop :=
  ∀ g, s.mem.taskId g ≠ none → ∃ u i id site exit, s.pc u = .supervise i g id site (.ended exit)

/-- Whoever has taken the supervisor lock is at a point at which it is held. -/
theorem supervised_of_reach (hr : Reach (step cfg) ok State.new s)
    (h : s.mem.supervisor ≠ none) : ∃ u, (s.pc u).supervises = true := by
  have hpos : 0 < s.total fun p => p.supervises.toNat := by
    revert h
    refine hr.invariant (fun s => s.mem.supervisor ≠ none →
      0 < s.total fun p => p.supervises.toNat) (fun h => absurd rfl h) ?_
    intro s a s' ih _ h
    refine total_step (fun p => p.supervises.toNat) (fun m n => m.supervisor ≠ none → 0 < n) h
      ?_ ?_ ?_ ?_ ?_
    · rintro t p k - rfl - hk
      refine wp_supervised.mono fun m p' c hp hm => ?_
      rcases hp hm with hp' | ⟨hp, hm⟩
      · rw [hp']
        exact Nat.add_pos_left (Nat.add_pos_right k Nat.one_pos) _
      · have := ih hm
        rw [hk, hp] at this
        exact Nat.add_pos_left (Nat.add_pos_left this _) _
    · intro t p p' k hj _ hk hm
      have := ih hm
      cases hj <;> exact hk ▸ this
    · rintro c m p - hc hm
      cases hc <;> exact Nat.add_pos_left (ih hm) _
    · exact fun _ _ _ hm => ih hm
    · rintro m c hh hm
      cases hh <;> exact Nat.add_pos_left (ih hm) _
  obtain ⟨u, -, hu⟩ := Pool.exists_of_total_pos hpos
  refine ⟨u, ?_⟩
  cases hb : (s.pc u).supervises with
  | true => rfl
  | false =>
    rw [hb] at hu
    cases hu

/-- A terminated domain has notified, or somebody is about to. -/
theorem announced_of_reach (hr : Reach (step cfg) ok State.new s)
    (h : s.mem.phase = .terminated) : 0 < s.mem.quiescent ∨ ∃ u, (s.pc u).notifies = true := by
  have hpos : 0 < s.mem.quiescent ∨ 0 < s.total fun p => p.notifies.toNat := by
    revert h
    refine hr.invariant (fun s => s.mem.phase = .terminated →
      0 < s.mem.quiescent ∨ 0 < s.total fun p => p.notifies.toNat) (fun h => nomatch h) ?_
    intro s a s' ih _ h
    refine total_step (fun p => p.notifies.toNat)
      (fun m n => m.phase = .terminated → 0 < m.quiescent ∨ 0 < n) h ?_ ?_ ?_ ?_ ?_
    · rintro t p k - rfl - hk
      refine wp_announced.mono fun m p' c hp hm => ?_
      rcases hp hm with hq | hp' | ⟨hp, hm, hq⟩
      · exact .inl hq
      · rw [hp']
        exact .inr (Nat.add_pos_left (Nat.add_pos_right k Nat.one_pos) _)
      · have := ih hm
        rw [hk, hp] at this
        exact (hq ▸ this).imp_right fun h => Nat.add_pos_left (Nat.add_pos_left h _) _
    · intro t p p' k hj _ hk hm
      have := ih hm
      cases hj <;> exact hk ▸ this
    · rintro c m p - hc hm
      cases hc <;> exact (ih hm).imp_right fun h => Nat.add_pos_left h _
    · exact fun _ _ _ hm => ih hm
    · rintro m c hh hm
      cases hh <;> exact (ih hm).imp_right fun h => Nat.add_pos_left h _
  refine hpos.imp_right fun hpos => ?_
  obtain ⟨u, -, hu⟩ := Pool.exists_of_total_pos hpos
  refine ⟨u, ?_⟩
  cases hb : (s.pc u).notifies with
  | true => rfl
  | false =>
    rw [hb] at hu
    cases hu

/-- A supervising future of a state in which all have ended has ended. -/
theorem State.Unsupervised.ended (h : s.Unsupervised) (hr : Reach (step cfg) ok State.new s)
    {u : Tid} {i : Ident R K} {site : Option Site} {p : SupervisePc E}
    (hp : s.pc u = .supervise i g id site p) : ∃ exit, p = .ended exit := by
  have hk := (known_of_reach hr).2 u
  rw [hp] at hk
  obtain ⟨v, j, id', site', exit, hv⟩ := h g (hk.2.1 ▸ Option.some_ne_none id)
  have hu : 0 < (s.pc u).charge g := by rw [hp]; exact isGen_pos g
  have hvc : 0 < (s.pc v).charge g := by rw [hv]; exact isGen_pos g
  have hlt {w : Tid} (hw : 0 < (s.pc w).charge g) : w < s.size :=
    lt_size_of_ne_idle (fresh_of_reach hr) fun e => by rw [e] at hw; exact Nat.lt_irrefl _ hw
  obtain rfl := (charge_of_reach hr).eq (hlt hu) (hlt hvc) hu hvc
  rw [hp] at hv
  cases hv
  exact ⟨exit, rfl⟩

omit [DecidableEq R] [DecidableEq K] in
/-- A thread that holds the supervisor lock is settling the phase, or it agrees with the table. -/
theorem Pc.Agrees.settled (h : p.Agrees m) (hs : p.supervises = true)
    (hp : p.isSupervising = false) : p.settling = true ∨ m.Agree := by
  cases_type* Pc AcquirePc CreatePc Domain.RegisterPc Domain.CancelPc Domain.ShutdownPc
    Domain.TerminatePc
  case acquire.create.register.activate | acquire.create.register.insert => exact .inr h.agree
  case supervise => cases hp
  all_goals first
    | exact .inl rfl
    | exact .inr h
    | exact .inr h.1
    | cases hs

omit [DecidableEq R] [DecidableEq K] in
theorem settling_of_notifies (h : p.notifies = true) (hp : p.isSupervising = false) :
    p.settling = true := by
  cases_type* Pc Domain.CancelPc Domain.ShutdownPc Domain.TerminatePc
  case supervise => cases hp
  all_goals first
    | exact rfl
    | cases h

/-- A supervising future that has ended has called `task_finished` once, unless it was abandoned. -/
theorem removes_iff (h : History (step cfg) ok State.new es s) {u : Tid} {i : Ident R K}
    {site : Option Site} {exit : Exit} (hu : s.pc u = .supervise i g id site (.ended exit)) :
    es.countP (Removes id) = 1 ↔ ¬ Happened (fun e => Abandons id e = true) es := by
  have hr := h.reach
  have hku := (known_of_reach hr).2 u
  rw [hu] at hku
  have hlt : u < s.size :=
    lt_size_of_ne_idle (fresh_of_reach hr) fun e => by rw [e] at hu; cases hu
  have hone := Pool.le_total (Pc.past id) hlt
  have hpast : (s.pc u).past id = 1 := by
    rw [hu]
    exact if_pos ⟨rfl, rfl⟩
  have hle := past_le_one hr hku.2.1
  have hsum := removed_add_abandoned id h
  have hhap : Happened (fun e => Abandons id e = true) es ↔ 0 < es.countP (Abandons id) :=
    List.countP_pos_iff.symm
  rw [hhap]
  omega

/-- When no supervising future is abandoned and all have ended, the table is empty. -/
theorem State.Unsupervised.no_tasks (hun : s.Unsupervised)
    (hok : ∀ s a, ok s a → ¬ DropsUnpolled s a) (hr : Reach (step cfg) ok State.new s) :
    s.mem.tasks = [] := by
  obtain ⟨htab, hk⟩ := known_of_reach hr
  refine List.eq_nil_iff_forall_not_mem.mpr fun e he => ?_
  obtain ⟨u, i, id, site, exit, hu⟩ := hun e.2 (htab.entry e he ▸ Option.some_ne_none e.1)
  have hku := hk u
  have hul := unlisted_of_reach hok hr u
  rw [hu] at hku hul
  exact hul rfl e he (Option.some.inj ((htab.entry e he).symm.trans hku.2.1))

/-- When the table is empty and all supervising futures have ended, a domain that has left `Running`
has terminated and told everybody, unless a call of `cancel` is still at it. -/
theorem State.Unsupervised.terminated (hun : s.Unsupervised)
    (hr : Reach (step cfg) ok State.new s) (hempty : s.mem.tasks = [])
    (hrun : s.mem.phase ≠ .running) : (∃ u, (s.pc u).settling = true) ∨
      s.mem.phase = .terminated ∧ ∀ s', Reach (step cfg) ok s s' →
        ∀ t seen, (s'.pc t).awaitsQuiescence = some seen → seen < s'.mem.quiescent := by
  have hended {u : Tid} (hu : (s.pc u).isSupervising = true) :
      (s.pc u).supervises = false ∧ (s.pc u).notifies = false := by
    unfold Pc.isSupervising at hu
    split at hu
    · rename_i i g id site p heq
      obtain ⟨exit, rfl⟩ := hun.ended hr heq
      rw [heq]
      exact ⟨rfl, rfl⟩
    · cases hu
  have hagree : (∃ u, (s.pc u).settling = true) ∨ s.mem.Agree := by
    by_cases hsup : s.mem.supervisor = none
    · exact .inr ((agrees_of_reach hr).1 hsup)
    · obtain ⟨u, hu⟩ := supervised_of_reach hr hsup
      refine (((agrees_of_reach hr).2 u).settled hu ?_).imp_left fun h => ⟨u, h⟩
      exact Bool.eq_false_iff.mpr fun hsv => by rw [(hended hsv).1] at hu; cases hu
  rcases hagree with hset | hagree
  · exact .inl hset
  · have hterm : s.mem.phase = .terminated := by
      unfold Memory.Agree at hagree
      cases hph : s.mem.phase with
      | running => exact absurd hph hrun
      | shuttingDown =>
        rw [hph] at hagree
        exact absurd hempty hagree.1
      | terminated => rfl
    rcases announced_of_reach hr hterm with hq | ⟨u, hu⟩
    · refine .inr ⟨hterm, fun s' hs' t seen ht => ?_⟩
      exact notified_of_reach (hr.trans hs') (hq.trans_le (grows_of_reach hs').quiescent) ht
    · refine .inl ⟨u, settling_of_notifies hu ?_⟩
      exact Bool.eq_false_iff.mpr fun hsv => by rw [(hended hsv).2] at hu; cases hu

/-- **Accounting for supervising futures**, in every run. A supervising future that has ended has
taken its id out of the supervisor table, by exactly one call of `task_finished`, exactly if the
executor did not drop it before its first poll. And if it drops none like that, then in every state
in which all supervising futures have ended the table is empty; unless a call of `cancel` is still
settling it under the supervisor lock, a domain that has left `Running` is then terminated, and
nobody who waits in `shutdown` has not been notified, now or later. -/
theorem supervision_is_accounted (h : History (step cfg) ok State.new es s) :
    (∀ u i g id site exit, s.pc u = .supervise i g id site (.ended exit) →
      (es.countP (Removes id) = 1 ↔ ¬ Happened (fun e => Abandons id e = true) es)) ∧
      ((∀ s a, ok s a → ¬ DropsUnpolled s a) → s.Unsupervised → s.mem.tasks = [] ∧
        (s.mem.phase ≠ .running → (∃ u, (s.pc u).settling = true) ∨
          s.mem.phase = .terminated ∧ ∀ s', Reach (step cfg) ok s s' →
            ∀ t seen, (s'.pc t).awaitsQuiescence = some seen → seen < s'.mem.quiescent)) := by
  refine ⟨fun u i g id site exit hu => removes_iff h hu, fun hok hun => ?_⟩
  have hempty := hun.no_tasks hok h.reach
  exact ⟨hempty, hun.terminated h.reach hempty⟩

/-- A generation whose task completes. -/
def accountedRun : List (Action Unit Unit Unit) :=
  .call (.acquire ⟨.spawn, ⟨(), ()⟩⟩) :: List.replicate 14 (.run 0 .go) ++
    [.poll 0, .gate 0, .finish 0 .ok] ++ List.replicate 10 (.run 1 .go)

theorem accountedRun_removes :
    (events (step (.single false)) [] State.new accountedRun).countP (Removes 0) = 1 := by
  have hs : History (step (.single false)) (fun _ _ => True) State.new
      (events (step (.single false)) [] State.new accountedRun)
      ((afterwards false accountedRun).get (by decide +kernel)) :=
    history_exec (P := fun _ => True) (fun _ _ h => h) (by decide +kernel) (by decide +kernel)
  exact ((supervision_is_accounted hs).1 1 ⟨(), ()⟩ 0 0 none .ran (by decide +kernel)).2
    (by decide +kernel)

/-- **Supervision on every exit**, in every run in which the executor drops no supervising future
before its first poll. However a supervising future has ended, its id has been taken out of the
table by exactly one call of `task_finished`. When all have ended, the table is empty; and a domain
that has left `Running`, with no call of `cancel` settling it under the supervisor lock, has
terminated, and nobody who waits in `shutdown` has not been notified, now or later. -/
theorem every_exit_is_accounted (hok : ∀ s a, ok s a → ¬ DropsUnpolled s a)
    (h : History (step cfg) ok State.new es s) :
    (∀ u i g id site exit, s.pc u = .supervise i g id site (.ended exit) →
      es.countP (Removes id) = 1) ∧
    (s.Unsupervised → s.mem.tasks = [] ∧
      (s.mem.phase ≠ .running → (∀ u, (s.pc u).settling = false) →
        s.mem.phase = .terminated ∧ ∀ s', Reach (step cfg) ok s s' →
          ∀ t seen, (s'.pc t).awaitsQuiescence = some seen → seen < s'.mem.quiescent)) := by
  refine ⟨fun u i g id site exit hu => (removes_iff h hu).mpr ?_, fun hun => ?_⟩
  · rintro ⟨⟨v, a⟩, he, hab⟩
    obtain ⟨-, ha, -⟩ := h.event he
    exact hok v a ha (dropsUnpolled_of_abandons hab)
  · have hempty := hun.no_tasks hok h.reach
    refine ⟨hempty, fun hrun hset => (hun.terminated h.reach hempty hrun).resolve_left ?_⟩
    rintro ⟨u, hu⟩
    exact Bool.noConfusion (hu.symm.trans (hset u))

/-- The generation whose supervising future an action drops before its first poll. -/
def Action.abandoned? (s : State R K E) : Action R K E → Option GenId
  | .dropSupervisor t =>
    match s.pc t with
    | .supervise _ g _ _ .unpolled => some g
    | _ => none
  | _ => none

instance (s : State R K E) (a : Action R K E) : Decidable (DropsUnpolled s a) :=
  decidable_of_iff ((a.abandoned? s).isSome = true) <| by
    rw [Option.isSome_iff_exists]
    constructor
    · rintro ⟨g, hg⟩
      unfold Action.abandoned? at hg
      split at hg
      · split at hg
        case h_1 t _ i x id site hp => exact ⟨t, i, x, id, site, rfl, hp⟩
        case h_2 => cases hg
      · cases hg
    · rintro ⟨t, i, g, id, site, rfl, hp⟩
      refine ⟨g, ?_⟩
      simp only [Action.abandoned?, hp]

/-- A generation whose supervising future is dropped while it joins the task. -/
def droppedRun : List (Action Unit Unit Unit) :=
  .call (.acquire ⟨.spawn, ⟨(), ()⟩⟩) :: List.replicate 14 (.run 0 .go) ++
    [.run 1 .go, .dropSupervisor 1] ++ List.replicate 5 (.run 1 .go)

theorem droppedRun_removes :
    (events (step (.single false)) [] State.new droppedRun).countP (Removes 0) = 1 := by
  have hs : History (step (.single false)) (fun s a => ¬ DropsUnpolled s a) State.new
      (events (step (.single false)) [] State.new droppedRun)
      ((afterwards false droppedRun).get (by decide +kernel)) :=
    history_of_exec .start (by decide +kernel) (Option.some_get (by decide +kernel)).symm
  exact (every_exit_is_accounted (fun _ _ h => h) hs).1 1 ⟨(), ()⟩ 0 0 none .dropped
    (by decide +kernel)

/-- A generation whose supervising future is dropped before its first poll. -/
def abandonedRun : List (Action Unit Unit Unit) :=
  .call (.acquire ⟨.spawn, ⟨(), ()⟩⟩) :: List.replicate 14 (.run 0 .go) ++
    [.dropSupervisor 1, .run 1 .go]

/-- Then no call of `task_finished` takes its id out of the table. -/
theorem abandoned_not_removed :
    ¬ ∀ (es : List (State Unit Unit Unit × Action Unit Unit Unit)) (s : State Unit Unit Unit),
      History (step (.single false)) (fun _ _ => True) State.new es s →
        ∀ u i g id site exit, s.pc u = .supervise i g id site (.ended exit) →
          es.countP (Removes id) = 1 := by
  intro h
  have hs : History (step (.single false)) (fun _ _ => True) State.new
      (events (step (.single false)) [] State.new abandonedRun)
      ((afterwards false abandonedRun).get (by decide +kernel)) :=
    history_exec (P := fun _ => True) (fun _ _ h => h) (fun _ _ => trivial) _
  exact absurd (h _ _ hs 1 ⟨(), ()⟩ 0 0 none .dropped (by decide +kernel)) (by decide +kernel)

/-! ## Abandoned futures -/

/-- A registered generation is in the table. -/
def Memory.Enters (m : Memory R K E) (id : ℕ) (g : GenId) : Prop :=
  m.taskId g = some id → (id, g) ∈ m.tasks

theorem wp_enters {α : Type} {ins : Instr R K E α} (h : ins.unlists? ≠ some id)
    (hm : m.Enters id g) : ins.wp cfg t m fun m' _ _ => m'.Enters id g := by
  cases ins
  case insertTask x k =>
    intro hg
    rcases eq_of_update hg with ⟨rfl, rfl⟩ | hg
    · exact List.mem_cons_self
    · exact List.mem_cons_of_mem _ (hm hg)
  case removeTask x k =>
    exact fun hg => List.mem_filter.mpr ⟨hm hg, decide_eq_true fun e => h (congrArg some e.symm)⟩
  all_goals
    repeat' first
      | exact trivial
      | exact hm
      | apply And.intro
      | intro _

/-- An id that has not been taken out of the table is in it. -/
theorem enters_of_history (h : History (step cfg) ok State.new es s)
    (h0 : es.countP (Removes id) = 0) : s.mem.Enters id g := by
  revert h0
  refine h.invariant (fun es s => es.countP (Removes id) = 0 → s.mem.Enters id g)
    (fun _ h => nomatch h) ?_
  rintro es s a s' - ih - h h0
  rw [List.countP_cons] at h0
  have ih : s.mem.Enters id g := ih (by omega)
  cases step_cases h with
  | @call _ m _ hb =>
    rw [Pool.fork_mem]
    have hm : m.Enters id g := by cases call_cases hb <;> exact ih
    exact hm
  | @run t ch mv hr he =>
    rw [Pool.advance_mem]
    refine (wp_enters (fun hcode => ?_) ih).sound he
    have hremoves : Removes id (s, .run t ch) = true := decide_eq_true hcode
    rw [hremoves, if_pos rfl] at h0
    omega
  | jump => exact ih
  | task => exact ih
  | @hold _ m c hh =>
    rw [Pool.fork_mem]
    have hm : m.Enters id g := by cases hold_cases hh <;> exact ih
    exact hm

/-- A future that was abandoned had been given its id. -/
theorem registered_of_abandons (h : History (step cfg) ok State.new es s)
    (hab : Happened (fun e => Abandons id e = true) es) : ∃ g, s.mem.taskId g = some id := by
  obtain ⟨⟨v, a⟩, he, hab⟩ := hab
  obtain ⟨t, i, g, x, site, rfl, hp⟩ := dropsUnpolled_of_abandons hab
  obtain ⟨hv, ha, u, hu, hus⟩ := h.event he
  simp only [Abandons, hp, decide_eq_true_eq] at hab
  have hk := (known_of_reach hv).2 t
  rw [hp] at hk
  exact ⟨g, taskId_of_reach hv (.head ⟨_, ha, hu⟩ hus) (hab ▸ hk.2.1)⟩

/-- **An abandoned future strands its domain.** Once the executor has dropped a supervising future
before its first poll, its id stays in the supervisor table; so the domain never terminates, and no
call of `shutdown` or `terminate` ever returns. -/
theorem abandoned_strands_domain (h : History (step cfg) ok State.new es s)
    (hab : Happened (fun e => Abandons id e = true) es) :
    (∃ g, (id, g) ∈ s.mem.tasks) ∧ s.mem.phase ≠ .terminated ∧
      ∀ t, (s.pc t).hasShutDown = false := by
  have hr := h.reach
  obtain ⟨g, hg⟩ := registered_of_abandons h hab
  have h0 : es.countP (Removes id) = 0 := by
    have hsum := removed_add_abandoned id h
    have hle := past_le_one hr hg
    have hpos : 0 < es.countP (Abandons id) := List.countP_pos_iff.mpr hab
    omega
  have hmem := enters_of_history h h0 hg
  have hterm : s.mem.phase ≠ .terminated := fun ht => by
    rw [terminated_of_reach hr ht] at hmem
    cases hmem
  refine ⟨⟨g, hmem⟩, hterm, fun t => Bool.eq_false_iff.mpr fun ht => ?_⟩
  exact hterm (terminated_of_hasShutDown ht ((past_of_reach hr).2 t))

/-- A generation whose supervising future is dropped before its first poll when its task has
completed, and a call of `shutdown`. -/
def strandedRun : List (Action Unit Unit Unit) :=
  .call (.acquire ⟨.spawn, ⟨(), ()⟩⟩) :: List.replicate 14 (.run 0 .go) ++
    [.poll 0, .gate 0, .finish 0 .ok, .dropSupervisor 1, .run 1 .go] ++
    .call .shutdown :: List.replicate 6 (.run 2 .go) ++ .run 2 (.pick 0) ::
    List.replicate 6 (.run 2 .go)

theorem strandedRun_waits :
    (((afterwards false strandedRun).get (by decide +kernel)).pc 2).hasShutDown = false := by
  have hs : History (step (.single false)) (fun _ _ => True) State.new
      (events (step (.single false)) [] State.new strandedRun)
      ((afterwards false strandedRun).get (by decide +kernel)) :=
    history_exec (P := fun _ => True) (fun _ _ h => h) (by decide +kernel) (by decide +kernel)
  have hab : Happened (fun e => Abandons 0 e = true)
      (events (step (.single false)) [] State.new strandedRun) := by decide +kernel
  exact (abandoned_strands_domain hs hab).2.2 2

end

end Resourcery
