import Resourcery.Proof.Ownership
import Resourcery.Proof.Supervision

/-!
# Canonical exclusivity

No two generations of one identity are upgradeable and active. While the domain accepts, a
generation that can still be acquired is the one its slot, which is attached, points to, or the one
the owner of the claim is creating (`Covered`). So when the claim is granted all earlier
generations are dead, and they stay so.
-/

namespace Resourcery

open Interleaving Function Transition ResourceContext

variable {R K E : Type}

/-! ## Dead generations -/

/-- Nobody can acquire `g` any more: its weak entry cannot be upgraded, or its control has been
cancelled or finished. -/
def Memory.Dead (m : Memory R K E) (g : GenId) : Prop :=
  m.strong g = 0 ∨ 2 ≤ (m.control g).rank

/-- All generations of the canonical identity `i` are dead. -/
def Memory.Cleared (m : Memory R K E) (i : Ident R K) : Prop :=
  ∀ g, m.ident g = some i → m.site g ≠ none → m.Dead g

/-- A registered generation has been activated. -/
def Memory.Begun (m : Memory R K E) : Prop := ∀ g, m.taskId g ≠ none → m.control g ≠ .starting

variable {cfg : Config R K} {t : Tid} {m m' : Memory R K E} {p : Pc R K E} {g : GenId}
  {i : Ident R K} {x : Site}

theorem Memory.Dead.mono (h : m.Dead g) (hg : Grows m m') (hi : Inert m m')
    (hlt : g < m.nextGen) : m'.Dead g := by
  refine h.imp (fun h => (hi.2 g h).resolve_right fun he => ?_) fun h => h.trans (hg.control g)
  exact absurd hlt (he.1 ▸ Nat.lt_irrefl _)

theorem dead_of_control {ph : Phase} (h : m.control g = ph) (h1 : m.control g ≠ .starting)
    (h2 : ph ≠ .active) : m.Dead g := by
  refine .inr ?_
  rw [h]
  rw [h] at h1
  cases ph
  · exact absurd rfl h1
  · exact absurd rfl h2
  · exact Nat.le_refl _
  · exact Nat.le_succ _

theorem control_of_dead (h : m.Dead g) :
    m.strong g = 0 ∨ m.control g = .cancelling ∨ m.control g = .finished := by
  refine h.imp_right fun h => ?_
  cases hc : m.control g <;> simp_all [Phase.rank]

variable [DecidableEq R] [DecidableEq K]

/-- A generation is registered when it is active. -/
def Instr.Begins {α : Type} (m : Memory R K E) : Instr R K E α → Prop
  | .insertTask g _ => m.control g = .active
  | _ => True

omit [DecidableEq R] [DecidableEq K] in
theorem begins_of_starts (h : p.Starts m) : p.code.Begins m := by
  cases p using Pc.points
  case acquire_create_register_insert => exact h
  all_goals trivial

theorem wp_registered {α : Type} {ins : Instr R K E α} (hi : ins.Begins m) :
    ins.wp cfg t m fun m' _ _ => ∀ g, m'.taskId g ≠ none → m.taskId g ≠ none ∨
      m'.control g ≠ .starting := by
  cases ins
  case insertTask x k =>
    intro g hg
    by_cases hx : g = x
    · refine .inr ?_
      subst hx
      have hact : m.control g = .active := hi
      show m.control g ≠ _
      rw [hact]
      decide
    · have heq : update m.taskId x (some m.nextTask) g = m.taskId g := update_of_ne hx _ _
      exact .inl (heq ▸ hg)
  all_goals
    repeat' first
      | exact trivial
      | exact fun _ h => .inl h
      | apply And.intro
      | intro _

omit [DecidableEq R] [DecidableEq K] in
theorem not_starting_mono (hg : Grows m m') (h : m.control g ≠ .starting) :
    m'.control g ≠ .starting := by
  intro he
  have := hg.control g
  rw [he] at this
  cases hc : m.control g <;> simp_all [Phase.rank]

theorem begun_of_reach {ok : State R K E → Action R K E → Prop} {s : State R K E}
    (hr : Reach (step cfg) ok State.new s) : s.mem.Begun := by
  refine hr.invariant_of_reach (fun s => s.mem.Begun) (fun _ h => absurd rfl h) ?_
  intro s a s' hs hm _ h g hg
  have hor : s.mem.taskId g ≠ none ∨ s'.mem.control g ≠ .starting := by
    refine mem_step (fun m => ∀ g, m.taskId g ≠ none → s.mem.taskId g ≠ none ∨
      m.control g ≠ .starting) h (fun _ => .inl) ?_ ?_ ?_ ?_ g hg
    · rintro t p - rfl -
      exact wp_registered (begins_of_starts (starts_of_reach hs t))
    · rintro c m p - hc
      cases hc <;> exact fun _ => .inl
    · exact fun _ _ _ _ => .inl
    · rintro m c hh
      cases hh <;> exact fun _ => .inl
  exact hor.elim (fun h0 => not_starting_mono (grows_step h) (hm g h0)) id

/-! ## A refused generation -/

/-- A claim goes past an active slot when its generation has been refused: it is dead, or the
domain has stopped accepting. It takes the slot over when the generation is dead. -/
def Pc.Refuses (m : Memory R K E) : Pc R K E → Prop
  | .acquire _ (.claim (.dropResource _ _ g)) | .acquire _ (.claim (.recheck _ _ g)) =>
    m.Dead g ∨ ¬ m.Accepting
  | .acquire _ (.claim (.takeover _ _ g)) => m.Dead g
  | _ => True

omit [DecidableEq R] [DecidableEq K] in
theorem Pc.Refuses.stable (h : p.Refuses m) (hg : Grows m m') (hi : Inert m m')
    (hs : p.Sees m) (hm : Sites m) : p.Refuses m' := by
  unfold Pc.Refuses at *
  split <;> simp only at h
  case h_1 | h_2 =>
    exact h.imp (fun hd => hd.mono hg hi (hm.active _ _ _ _ hs.2).1.1)
      fun hn ha => hn (hg.accepting ha)
  case h_3 => exact Memory.Dead.mono h hg hi (hm.active _ _ _ _ hs.2).1.1
  case h_4 => trivial

theorem refuses_run (hp : p.Refuses m) (hs : p.Sees m) (hm : Sites m) (hb : m.Begun) :
    p.code.wp cfg t m fun m' p' c => p'.Refuses m' ∧ ForSome (Pc.Refuses m') c := by
  cases p using Pc.points
  case acquire_claim_upgrade =>
    exact ⟨fun _ => ⟨trivial, trivial⟩, fun h0 => ⟨.inl (.inl h0), trivial⟩⟩
  case acquire_claim_tryAcquire_accepting | acquire_claim_tryAcquire_acceptingAgain =>
    exact ⟨fun _ => ⟨trivial, trivial⟩, fun hn => ⟨.inr hn, trivial⟩⟩
  case acquire_claim_tryAcquire_active | acquire_claim_tryAcquire_activeAgain =>
    have hne := hb _ (hm.active _ _ _ _ hs.2).2
    exact ⟨fun h => absurd h hne, fun _ => ⟨trivial, trivial⟩,
      fun h => ⟨.inl (dead_of_control h hne (by decide)), trivial⟩,
      fun h => ⟨.inl (dead_of_control h hne (by decide)), trivial⟩⟩
  case acquire_claim_dropResource q _ _ g =>
    have hdrop (k : ℕ) (hk : m.strong g = 0 → k = 0) (hp : m.Dead g ∨ ¬ m.Accepting) :
        (Memory.Dead { m with strong := update m.strong g k } g) ∨ ¬ m.Accepting :=
      hp.imp_left fun h => h.imp_left fun h0 => (update_self _ _ _).trans (hk h0)
    exact ⟨fun h1 => ⟨hdrop 0 (fun _ => rfl) hp, trivial⟩,
      fun _ => ⟨hdrop _ (fun h0 => by rw [h0]) hp, trivial⟩⟩
  case acquire_claim_recheck =>
    exact ⟨fun ha => ⟨hp.resolve_right (not_not.mpr ha), trivial⟩, fun _ => ⟨trivial, trivial⟩⟩
  case acquire_guard_remove_entry | supervise_cleanup_entry =>
    refine ⟨⟨trivial, trivial⟩, fun _ => ⟨fun _ _ => ?_, fun _ => ⟨trivial, trivial⟩⟩⟩
    dsimp only
    split <;> exact ⟨trivial, trivial⟩
  all_goals
    repeat' first
      | exact trivial
      | exact hp
      | apply And.intro
      | intro _

theorem refuses_of_reach {s : State R K E} {ok : State R K E → Action R K E → Prop}
    (hs : Reach (step cfg) ok State.new s) (u : Tid) : (s.pc u).Refuses s.mem := by
  revert u
  refine hs.invariant_of_reach (fun s => ∀ u, (s.pc u).Refuses s.mem) (fun _ => trivial) ?_
  intro s a s' hs ih _ h
  have hc := sited_of_reach hs
  have hsees := (sees_of_reach hs).2
  refine forall_pc_step (fun m _ p => p.Refuses m) h ih (fun u _ => (ih u).stable (grows_step h)
    ((counted_of_reach hs).inert h) (hsees u) hc.sites) ?_ ?_ ?_ ?_
  · rintro t p - rfl - hp
    exact refuses_run hp (hsees t) hc.sites (begun_of_reach hs)
  · rintro t p p' hj - - -
    cases hj <;> trivial
  · rintro c m p rfl hcall
    cases hcall <;> trivial
  · rintro m c hh
    cases hh
    trivial

/-! ## The current generation -/

/-- The slot of `x` is attached and points to `g`. -/
def Memory.Current (m : Memory R K E) (i : Ident R K) (x : Site) (g : GenId) : Prop :=
  m.Attached i x.slot ∧ m.state i x.slot = .active x.generation g

/-- The generation an acquisition has created and not put into its slot yet. -/
def ResourceContext.AcquirePc.makes? : AcquirePc → Option GenId
  | .create _ p => p.gen?
  | .settle _ _ g .accepting | .settle _ _ g .lockState | .settle _ _ g .storeActive => some g
  | _ => none

/-- Whether a thread is creating `g`. -/
def Pc.makes (g : GenId) : Pc R K E → ℕ
  | .acquire _ p => isGen g p.makes?
  | _ => 0

/-- An instruction leaves the slot `n` of `i` and its entry alone. -/
def Instr.Spares {α : Type} (i : Ident R K) (n : ℕ) : Instr R K E α → Prop
  | .storeState j k _ _ => ¬ (j = i ∧ k = n)
  | .removeEntry j _ | .insertSlot j _ => j ≠ i
  | _ => True

theorem wp_current {α : Type} {ins : Instr R K E α} (hi : ins.Spares i x.slot)
    (h : m.Current i x g) : ins.wp cfg t m fun m' _ _ => m'.Current i x g := by
  cases ins
  case storeState j k st _ =>
    refine ⟨h.1, ?_⟩
    show update₂ m.state j k st i x.slot = _
    rw [update₂_apply, if_neg fun e => hi ⟨e.1.symm, e.2.symm⟩]
    exact h.2
  case removeEntry j _ => exact ⟨(update_of_ne (Ne.symm hi) _ _).trans h.1, h.2⟩
  case insertSlot j _ =>
    exact ⟨(update_of_ne (Ne.symm hi) _ _).trans h.1,
      (congrFun (update₂_row _ (Ne.symm hi) _ _) _).trans h.2⟩
  all_goals
    repeat' first
      | exact trivial
      | exact h
      | apply And.intro
      | intro _

omit [DecidableEq R] [DecidableEq K] in
/-- Nobody takes the slot of a current generation that is not dead, or removes it. -/
theorem spares_of_current (h : m.Current i x g) (hd : ¬ m.Dead g) (hm : Sites m) (ho : p.Owns m)
    (hs : p.Sees m) (hk : p.Known m) (hj : p.Joined m) (hr : p.Refuses m) :
    p.code.Spares i x.slot := by
  obtain ⟨hatt, hst⟩ := h
  cases p using Pc.points
  case acquire_claim_takeover q n generation g' =>
    rintro ⟨rfl, rfl⟩
    have := hst.symm.trans hs.2
    cases this
    exact hd hr
  case acquire_claim_insert q =>
    rintro rfl
    exact nomatch hatt.symm.trans hs
  case acquire_settle_storeActive q n generation g' =>
    rintro ⟨rfl, rfl⟩
    exact nomatch hst.symm.trans ho.1.2.1
  case acquire_guard_remove_remove q n generation result =>
    rintro rfl
    obtain rfl : x.slot = n := Option.some.inj (hatt.symm.trans hs)
    exact nomatch hst.symm.trans ho.1.2.1
  case supervise_cleanup_remove j g' id site y outcome =>
    rintro rfl
    have hslot : x.slot = y.slot := Option.some.inj (hatt.symm.trans hs)
    have hgen : (m.state j y.slot).generation = y.generation := ho.2.2.2
    rw [← hslot, hst] at hgen
    obtain rfl : x = y := by
      cases x; cases y; cases hslot; cases hgen; rfl
    obtain ⟨hmade, -, hsite⟩ := hk
    rw [show site = some x from hsite] at hmade
    have hact := (hm.active _ _ _ _ hst).1
    obtain rfl := hm.inj g g' j x hact.2.1 hact.2.2 hmade.2.1 hmade.2.2
    refine hd (.inr ?_)
    rw [hj.2]
    exact Nat.le_succ _
  all_goals trivial

theorem current_run (g : GenId) (hm : Sites m) (ho : p.Owns m) (hs : p.Sees m) (hk : p.Known m)
    (hj : p.Joined m) (hr : p.Refuses m) :
    p.code.wp cfg t m fun m' _ _ => ∀ i x, m.Current i x g → ¬ m.Dead g → m'.Current i x g := by
  by_cases h : ∃ i x, m.Current i x g ∧ ¬ m.Dead g
  · obtain ⟨i, x, hcur, hd⟩ := h
    refine (wp_current (spares_of_current hcur hd hm ho hs hk hj hr) hcur).mono ?_
    intro m' _ _ h j y hcur' _
    -- a generation is current at one site
    have h1 := (hm.active _ _ _ _ hcur.2).1
    have h2 := (hm.active _ _ _ _ hcur'.2).1
    obtain rfl := Option.some.inj (h1.2.1.symm.trans h2.2.1)
    obtain rfl : x = y := Option.some.inj (h1.2.2.symm.trans h2.2.2)
    exact h
  · exact (wp_grows _).mono fun _ _ _ _ i x h1 h2 => absurd ⟨i, x, h1, h2⟩ h

/-- From `p` a thread goes on at `p'`: a generation that is being created goes into its slot,
unless the domain has stopped accepting, and a new one is being created. -/
structure Creates (m : Memory R K E) (p : Pc R K E) (m' : Memory R K E) (p' : Pc R K E) :
    Prop where
  keeps : ∀ g i x, 0 < p.makes g → m.ident g = some i → m.site g = some x → ¬ m.Dead g →
    m.Accepting → 0 < p'.makes g ∨ m'.Current i x g
  made : ∀ g i x, m'.ident g = some i → m'.site g = some x →
    m.ident g = some i ∧ m.site g = some x ∨ 0 < p'.makes g

omit [DecidableEq R] [DecidableEq K] in
theorem Creates.of_eq {p' : Pc R K E} (h : ∀ g, p'.makes g = p.makes g) (h1 : m'.ident = m.ident)
    (h2 : m'.site = m.site) : Creates m p m' p' :=
  ⟨fun g _ _ hg _ _ _ _ => .inl (h g ▸ hg), fun _ _ _ hi hx => .inl ⟨h1 ▸ hi, h2 ▸ hx⟩⟩

omit [DecidableEq R] [DecidableEq K] in
theorem Creates.of_not_accepting {p' : Pc R K E} (ha : ¬ m.Accepting) (h1 : m'.ident = m.ident)
    (h2 : m'.site = m.site) : Creates m p m' p' :=
  ⟨fun _ _ _ _ _ _ _ h => absurd h ha, fun _ _ _ hi hx => .inl ⟨h1 ▸ hi, h2 ▸ hx⟩⟩

omit [DecidableEq R] [DecidableEq K] in
/-- The slot of an owner is attached while its generation is not dead. -/
theorem Memory.Owned.attached (h : m.Owned i x) (hm : Sites m) (hg : m.Made i (some x) g)
    (hd : ¬ m.Dead g) : m.Attached i x.slot := by
  refine h.2.2.resolve_right fun ⟨g', hmade, hf⟩ => hd (.inr ?_)
  obtain rfl := hm.inj g g' i x hg.2.1 hg.2.2 hmade.2.1 hmade.2.2
  rw [hf]
  exact Nat.le_succ _

theorem wp_creates (hs : p.Starts m) (hk : p.Known m) (ho : p.Owns m) (hm : Sites m) :
    p.code.wp cfg t m fun m' p' _ => Creates m p m' p' := by
  cases p using Pc.points
  case acquire_create_newEntry q site =>
    refine ⟨fun _ _ _ h => absurd h (Nat.lt_irrefl 0), fun g i x hi hx => ?_⟩
    by_cases hg : g = m.nextGen
    · subst hg
      exact .inr (isGen_pos _)
    · exact .inl ⟨(update_of_ne hg _ _).symm.trans hi, (update_of_ne hg _ _).symm.trans hx⟩
  case acquire_create_dropSender_none | acquire_create_dropSender_some =>
    exact .of_not_accepting hs rfl rfl
  case acquire_create_spawnSupervisor_none =>
    refine ⟨fun g i x h hi hx _ _ => ?_, fun _ _ _ h h' => .inl ⟨h, h'⟩⟩
    obtain rfl := eq_of_isGen h
    exact nomatch hk.1.2.2.symm.trans hx
  case acquire_settle_accepting =>
    exact ⟨fun _ => .of_eq (fun _ => rfl) rfl rfl, fun hn => .of_not_accepting hn rfl rfl⟩
  case acquire_settle_storeActive =>
    refine ⟨fun g i x h hi hx hd _ => ?_, fun _ _ _ h h' => .inl ⟨h, h'⟩⟩
    obtain rfl := eq_of_isGen h
    obtain rfl := Option.some.inj (hk.1.2.1.symm.trans hi)
    obtain rfl := Option.some.inj (hk.1.2.2.symm.trans hx)
    exact .inr ⟨(ho.owned rfl).attached hm hk.1 hd, update₂_self _ _ _ _⟩
  case acquire_guard_remove_entry | supervise_cleanup_entry =>
    refine ⟨.of_eq (fun _ => rfl) rfl rfl,
      fun _ => ⟨fun _ _ => ?_, fun _ => .of_eq (fun _ => rfl) rfl rfl⟩⟩
    dsimp only
    split <;> exact .of_eq (fun _ => rfl) rfl rfl
  all_goals
    repeat' first
      | exact trivial
      | apply And.intro
      | intro _
      | exact Creates.of_eq (fun _ => rfl) rfl rfl

/-- While the domain accepts, a canonical generation that is not dead is current or is being
created by one of `n` threads. -/
def Covered (g : GenId) (m : Memory R K E) (n : ℕ) : Prop :=
  ∀ i x, m.ident g = some i → m.site g = some x → ¬ m.Dead g → m.Accepting →
    m.Current i x g ∨ 0 < n

omit [DecidableEq R] [DecidableEq K] in
theorem Covered.step {n n' : ℕ} (h : Covered g m n) (hm : Sites m) (hg : Grows m m')
    (hin : Inert m m')
    (hmade : ∀ i x, m'.ident g = some i → m'.site g = some x →
      m.ident g = some i ∧ m.site g = some x ∨ 0 < n')
    (hcur : ∀ i x, m.Current i x g → ¬ m.Dead g → m'.Current i x g)
    (hkeeps : ∀ i x, 0 < n → m.ident g = some i → m.site g = some x → ¬ m.Dead g →
      m.Accepting → 0 < n' ∨ m'.Current i x g) : Covered g m' n' := by
  intro i x hi hx hd ha
  rcases hmade i x hi hx with ⟨hi, hx⟩ | hpos
  · have hlt : g < m.nextGen := by
      by_contra hge
      rw [hm.fresh g (Nat.le_of_not_lt hge)] at hi
      cases hi
    have hd' : ¬ m.Dead g := fun h => hd (h.mono hg hin hlt)
    rcases h i x hi hx hd' (hg.accepting ha) with h | h
    · exact .inl (hcur i x h hd')
    · exact (hkeeps i x h hi hx hd' (hg.accepting ha)).symm
  · exact .inr hpos

variable {s s' : State R K E} {a : Action R K E} {ok : State R K E → Action R K E → Prop}

theorem covered_of_reach (hs : Reach (step cfg) ok State.new s) (g : GenId) :
    Covered g s.mem (s.total (Pc.makes g)) := by
  refine hs.invariant_of_reach (fun s => Covered g s.mem (s.total (Pc.makes g)))
    (fun _ _ h => nomatch h) ?_
  intro s a s' hs ih _ h
  have hc := sited_of_reach hs
  have hk := (known_of_reach hs).2
  have same {m : Memory R K E} {n : ℕ} (hi : m.ident = s.mem.ident) (hx : m.site = s.mem.site)
      (hcur : ∀ i x, s.mem.Current i x g → m.Current i x g) (hn : s.total (Pc.makes g) ≤ n)
      (hg : Grows s.mem m) (hin : Inert s.mem m) : Covered g m n :=
    ih.step hc.sites hg hin (fun _ _ h h' => .inl ⟨hi ▸ h, hx ▸ h'⟩) (fun i x h _ => hcur i x h)
      fun _ _ hpos _ _ _ _ => .inl (hpos.trans_le hn)
  refine total_step (Pc.makes g) (fun m n => Grows s.mem m → Inert s.mem m → Covered g m n) h
    ?_ ?_ ?_ ?_ ?_ (grows_step h) ((counted_of_reach hs).inert h)
  · rintro t p k - rfl hr hn
    refine ((wp_creates (starts_of_reach hs t) (hk t) (hc.owns t) hc.sites).and
      (current_run g hc.sites (hc.owns t) ((sees_of_reach hs).2 t) (hk t) (joined_of_reach hs t)
        (refuses_of_reach hs t))).mono fun m p' c ⟨hcr, hcur⟩ hg hin => ?_
    refine ih.step hc.sites hg hin (fun i x hi hx => ?_) hcur fun i x hpos hi hx hd ha => ?_
    · refine (hcr.made g i x hi hx).imp_right fun h => ?_
      omega
    · by_cases hp : 0 < (s.pc t).makes g
      · exact (hcr.keeps g i x hp hi hx hd ha).imp_left fun h => by omega
      · exact .inl (by omega)
  · rintro t p p' k hj - hn
    have hle : p.makes g ≤ p'.makes g := by cases hj <;> exact Nat.le_refl _
    exact same rfl rfl (fun _ _ => id) (by omega)
  · rintro c m p - hcall
    cases hcall <;> exact same rfl rfl (fun _ _ => id) (Nat.le_add_right _ _)
  · exact fun _ _ _ => same rfl rfl (fun _ _ => id) (Nat.le_refl _)
  · rintro m c hh
    cases hh <;> exact same rfl rfl (fun _ _ => id) (Nat.le_add_right _ _)

/-! ## Granting the claim -/

/-- A thread that creates a generation owns its site. -/
theorem owner_of_makes (hs : Reach (step cfg) ok State.new s) {u : Tid}
    (hu : 0 < (s.pc u).makes g) (hi : s.mem.ident g = some i) (hx : s.mem.site g = some x) :
    (s.pc u).owner? = some (i, x) := by
  have hk := (known_of_reach hs).2 u
  revert hu hk
  generalize s.pc u = p
  intro hu hk
  have same {j : Ident R K} {y : Option Site} (h : s.mem.Made j y g) : j = i ∧ y = some x :=
    ⟨Option.some.inj (h.2.1.symm.trans hi), h.2.2.symm.trans hx⟩
  cases_type* Pc AcquirePc CreatePc SettlePc
  all_goals try (exact absurd hu (Nat.lt_irrefl 0))
  case acquire.create.register q site g' p =>
    obtain rfl := eq_of_isGen hu
    have hmade : s.mem.Made q.ident site g' := by
      cases p
      case dropSupervisor id => cases id <;> exact hk.1
      all_goals exact hk.1
    obtain ⟨rfl, rfl⟩ := same hmade
    rfl
  all_goals
    obtain rfl := eq_of_isGen hu
    obtain ⟨rfl, hy⟩ := same hk.1
    cases hy
    rfl

/-- The slot of a thread that creates a generation is attached while the generation is not dead. -/
theorem attached_of_makes (hs : Reach (step cfg) ok State.new s) {u : Tid}
    (hu : 0 < (s.pc u).makes g) (hi : s.mem.ident g = some i) (hx : s.mem.site g = some x)
    (hd : ¬ s.mem.Dead g) :
    s.mem.Attached i x.slot ∧ s.mem.state i x.slot = .starting x.generation := by
  have hc := sited_of_reach hs
  have howned := (hc.owns u).owned (owner_of_makes hs hu hi hx)
  have hlt : g < s.mem.nextGen := by
    by_contra hge
    rw [hc.sites.fresh g (Nat.le_of_not_lt hge)] at hi
    cases hi
  exact ⟨howned.attached hc.sites ⟨hlt, hi, hx⟩ hd, howned.2.1⟩

/-- The claim on an identity is granted when all its generations are dead. -/
theorem cleared_of_grants (hs : Reach (step cfg) ok State.new s)
    (hg : (s.pc t).Grants s.mem i) : s.mem.Cleared i := by
  have hacc : s.mem.Accepting := by
    revert hg
    unfold Pc.Grants
    split
    · exact (·.2)
    · exact (·.2)
    · exact False.elim
  intro g hi hx
  obtain ⟨x, hx⟩ := Option.ne_none_iff_exists'.mp hx
  by_contra hd
  have hcov := covered_of_reach hs g i x hi hx hd hacc
  -- the slot is attached, and active only with `g`
  have hatt : s.mem.Attached i x.slot := by
    refine hcov.elim (·.1) fun hpos => ?_
    obtain ⟨u, -, hmakes⟩ := Pool.exists_of_total_pos hpos
    exact (attached_of_makes hs hmakes hi hx hd).1
  have hst {k : ℕ} {g' : GenId} (hk : s.mem.state i x.slot = .active k g') : g' = g := by
    rcases hcov with hcur | hpos
    · cases hk.symm.trans hcur.2
      rfl
    · obtain ⟨u, -, hmakes⟩ := Pool.exists_of_total_pos hpos
      exact nomatch hk.symm.trans (attached_of_makes hs hmakes hi hx hd).2
  have hsees := (sees_of_reach hs).2 t
  have hrefuses := refuses_of_reach hs t
  revert hg hsees hrefuses
  generalize s.pc t = p
  intro hg hsees hrefuses
  unfold Pc.Grants at hg
  split at hg
  · obtain ⟨rfl, -⟩ := hg
    exact nomatch hatt.symm.trans hsees
  · obtain ⟨rfl, -⟩ := hg
    have hslot := Option.some.inj (hatt.symm.trans hsees.1)
    obtain rfl := hst (hslot ▸ hsees.2)
    exact hrefuses.elim hd (· hacc)
  · exact hg

/-- The identity of a thread that is about to be granted the claim, or has been and has not
created a generation. -/
def Pc.clear? : Pc R K E → Option (Ident R K)
  | .acquire q (.claim .insert) | .acquire q (.claim (.takeover ..)) => some q.ident
  | p => p.unmade?.map Prod.fst

/-- When the claim is granted, and until a generation is created, the others are dead. -/
def Pc.Clear (m : Memory R K E) (p : Pc R K E) : Prop := ForSome m.Cleared p.clear?

omit [DecidableEq R] [DecidableEq K] in
theorem clear_of_unmade (h : p.unmade? = some (i, x)) : p.clear? = some i := by
  unfold Pc.clear?
  split
  · cases h
  · cases h
  · rw [h]
    rfl

/-- A thread that is about to be granted the claim is the only one that may create a generation. -/
theorem eq_of_clear (hs : Reach (step cfg) ok State.new s) {u : Tid}
    (ht : (s.pc t).clear? = some i) (hu : (s.pc u).unmade? = some (i, x)) : t = u := by
  have hc := sited_of_reach hs
  have hatt := attached_of_unmade hs hu
  have hsees := (sees_of_reach hs).2 t
  unfold Pc.clear? at ht
  split at ht
  case h_1 q hp =>
    cases ht
    rw [hp] at hsees
    exact nomatch hatt.symm.trans hsees
  case h_2 q n generation g hp =>
    cases ht
    rw [hp] at hsees
    have hslot := Option.some.inj (hatt.symm.trans hsees.1)
    have hst := ((hc.owns u).owned (owner_of_unmade hu)).2.1
    rw [hslot, hsees.2] at hst
    cases hst
  case h_3 =>
    obtain ⟨⟨j, y⟩, hy, rfl⟩ := Option.map_eq_some_iff.mp ht
    have hslot := Option.some.inj (hatt.symm.trans (attached_of_unmade hs hy))
    have hsite := site_of_owner (owner_of_unmade hu)
    rw [hslot] at hsite
    exact hc.eq hs (site_of_owner (owner_of_unmade hy)) hsite

/-- The site for which an instruction creates a generation. -/
def Instr.creates? {α : Type} : Instr R K E α → Option (Ident R K × Site)
  | .newEntry i site _ => site.map (i, ·)
  | _ => none

omit [DecidableEq R] [DecidableEq K] in
theorem unmade_of_code (h : p.code.creates? = some (i, x)) : p.unmade? = some (i, x) := by
  revert h
  cases p using Pc.points
  case acquire_create_newEntry => exact id
  all_goals exact nofun

theorem wp_made {α : Type} {ins : Instr R K E α} (h : ins.creates? ≠ some (i, x)) :
    ins.wp cfg t m fun m' _ _ => ∀ g, m'.ident g = some i → m'.site g = some x →
      m.ident g = some i ∧ m.site g = some x := by
  cases ins
  case newEntry j site k =>
    intro g hi hx
    have hi' : update m.ident m.nextGen (some j) g = some i := hi
    have hx' : update m.site m.nextGen site g = some x := hx
    by_cases hg : g = m.nextGen
    · rw [hg, update_self] at hi' hx'
      cases hi'
      exact absurd (congrArg (Option.map (i, ·)) hx') h
    · rw [update_of_ne hg] at hi' hx'
      exact ⟨hi', hx'⟩
  all_goals
    repeat' first
      | exact trivial
      | exact fun _ h h' => ⟨h, h'⟩
      | apply And.intro
      | intro _

/-- A step creates a generation of a site when its thread is about to create it. -/
theorem made_step (h : step cfg s a = some s') (hi : s'.mem.ident g = some i)
    (hx : s'.mem.site g = some x) : s.mem.ident g = some i ∧ s.mem.site g = some x ∨
      ∃ t, a.actor = some t ∧ (s.pc t).unmade? = some (i, x) := by
  refine mem_step (fun m => ∀ g, m.ident g = some i → m.site g = some x →
    s.mem.ident g = some i ∧ s.mem.site g = some x ∨
      ∃ t, a.actor = some t ∧ (s.pc t).unmade? = some (i, x)) h (fun _ h h' => .inl ⟨h, h'⟩)
    ?_ ?_ ?_ ?_ g hi hx
  · rintro t p hat rfl -
    by_cases hcode : (s.pc t).code.creates? = some (i, x)
    · exact (wp_grows _).mono fun _ _ _ _ _ _ _ => .inr ⟨t, hat, unmade_of_code hcode⟩
    · exact (wp_made hcode).mono fun _ _ _ h g hi hx => .inl (h g hi hx)
  · rintro c m p - hc
    cases hc <;> exact fun _ h h' => .inl ⟨h, h'⟩
  · exact fun _ _ _ _ h h' => .inl ⟨h, h'⟩
  · rintro m c hh
    cases hh <;> exact fun _ h h' => .inl ⟨h, h'⟩

theorem clear_run (hp : p.Clear m) (hg : ∀ i, p.Grants m i → m.Cleared i) :
    p.code.wp cfg t m fun m' p' c => p'.Clear m' ∧ ForSome (Pc.Clear m') c := by
  cases p using Pc.points
  case' acquire_claim_dropState claim => cases claim
  case acquire_claim_vacant | acquire_claim_recheck =>
    exact ⟨fun ha => ⟨hg _ ⟨rfl, ha⟩, trivial⟩, fun _ => ⟨trivial, trivial⟩⟩
  case acquire_guard_remove_entry | supervise_cleanup_entry =>
    refine ⟨⟨trivial, trivial⟩, fun _ => ⟨fun _ _ => ?_, fun _ => ⟨trivial, trivial⟩⟩⟩
    dsimp only
    split <;> exact ⟨trivial, trivial⟩
  all_goals
    repeat' first
      | exact trivial
      | exact hp
      | apply And.intro
      | intro _

theorem clear_of_reach (hs : Reach (step cfg) ok State.new s) (u : Tid) :
    (s.pc u).Clear s.mem := by
  revert u
  refine hs.invariant_of_reach (fun s => ∀ u, (s.pc u).Clear s.mem) (fun _ => trivial) ?_
  intro s a s' hs ih _ h
  have hsites := (sited_of_reach hs).sites
  refine forall_pc_step (fun m _ p => p.Clear m) h ih (fun u hu => ?_) ?_ ?_ ?_ ?_
  · have hclear := ih u
    unfold Pc.Clear at *
    cases hi : (s.pc u).clear? with
    | none => trivial
    | some i =>
      rw [hi] at hclear
      intro g h1 h2
      obtain ⟨x, hx⟩ := Option.ne_none_iff_exists'.mp h2
      rcases made_step h h1 hx with ⟨h1, hx⟩ | ⟨t, hat, ht⟩
      · refine (hclear g h1 (by rw [hx]; exact Option.some_ne_none _)).mono (grows_step h)
          ((counted_of_reach hs).inert h) ?_
        by_contra hge
        rw [hsites.fresh g (Nat.le_of_not_lt hge)] at h1
        cases h1
      · exact absurd (eq_of_clear hs hi ht ▸ hat) hu
  · rintro t p - rfl - hp
    exact clear_run hp fun i => cleared_of_grants hs
  · rintro t p p' hj - - -
    cases hj <;> trivial
  · rintro c m p rfl hcall
    cases hcall <;> trivial
  · rintro m c hh
    cases hh
    trivial

/-! ## One live generation -/

/-- `g` can be upgraded and is active. -/
def Memory.Live (m : Memory R K E) (g : GenId) : Prop := 0 < m.strong g ∧ m.control g = .active

/-- `g` is leased and active, and its domain accepts. -/
def Memory.Acquirable (m : Memory R K E) (g : GenId) : Prop := m.Live g ∧ m.Accepting

omit [DecidableEq R] [DecidableEq K] in
theorem Memory.Live.not_dead (h : m.Live g) : ¬ m.Dead g := by
  rintro (h0 | h2)
  · exact absurd h.1 (h0 ▸ Nat.lt_irrefl 0)
  · rw [h.2] at h2
    exact absurd h2 (by decide)

/-- A generation becomes live when `register` activates it. -/
theorem live_step (hs : Reach (step cfg) ok State.new s) (h : step cfg s a = some s')
    (hg : s'.mem.Live g) :
    s.mem.Live g ∨ ∃ t q site, a.actor = some t ∧ t < s.size ∧
      s.pc t = .acquire q (.create site (.register g .activate)) := by
  have hact : s.mem.control g = .active ∨ ∃ t q site, a.actor = some t ∧ t < s.size ∧
      s.pc t = .acquire q (.create site (.register g .activate)) := by
    refine mem_step (fun m => m.control g = .active → s.mem.control g = .active ∨
      ∃ t q site, a.actor = some t ∧ t < s.size ∧
        s.pc t = .acquire q (.create site (.register g .activate))) h .inl ?_ ?_ ?_ ?_ hg.2
    · rintro t p hat rfl hr
      by_cases hcode : (s.pc t).code.activates? = some g
      · obtain ⟨q, site, hp⟩ := activate_of_code hcode
        exact (wp_grows _).mono fun _ _ _ _ _ => .inr ⟨t, q, site, hat, hr.1, hp⟩
      · exact (wp_active hcode).mono fun _ _ _ h he => .inl (h he)
    · rintro c m p - hc
      cases hc <;> exact .inl
    · exact fun _ _ _ => .inl
    · rintro m c hh
      cases hh <;> exact .inl
  refine hact.imp_left fun h1 => ⟨Nat.pos_of_ne_zero fun h0 => ?_, h1⟩
  rcases ((counted_of_reach hs).inert h).2 g h0 with h0' | ⟨rfl, -⟩
  · exact absurd hg.1 (h0' ▸ Nat.lt_irrefl 0)
  · rw [((known_of_reach hs).1.fresh _ (Nat.le_refl _)).2.1] at h1
    cases h1

/-- Two canonical generations of one identity that are live are the same. -/
theorem live_of_reach (hs : Reach (step cfg) ok State.new s) {g g' : GenId} {x x' : Site}
    (hi : s.mem.ident g = some i) (hx : s.mem.site g = some x)
    (hi' : s.mem.ident g' = some i) (hx' : s.mem.site g' = some x') (hg : s.mem.Live g)
    (hg' : s.mem.Live g') : g = g' := by
  revert g g' i x x'
  refine hs.invariant_of_reach (fun s => ∀ {i} {g g' : GenId} {x x' : Site},
    s.mem.ident g = some i → s.mem.site g = some x → s.mem.ident g' = some i →
    s.mem.site g' = some x' → s.mem.Live g → s.mem.Live g' → g = g') (fun h => nomatch h) ?_
  intro s a s' hs ih _ h
  have hc := sited_of_reach hs
  have hgrow := grows_step h
  -- what is live has been made
  have old {i : Ident R K} {g : GenId} {x : Site} (hg : s.mem.Live g)
      (hi : s'.mem.ident g = some i) (hx : s'.mem.site g = some x) :
      s.mem.ident g = some i ∧ s.mem.site g = some x := by
    have hlt : g < s.mem.nextGen := by
      by_contra hge
      have := (counted_of_reach hs).fresh g (Nat.le_of_not_lt hge)
      exact absurd hg.1 (this ▸ Nat.lt_irrefl 0)
    exact ⟨(hgrow.ident g hlt).symm.trans hi, (hgrow.site g hlt).symm.trans hx⟩
  -- a generation that is being activated is the only one of its identity that is not dead
  have only {t : Tid} {q : Request R K} {site : Option Site} {i : Ident R K} {g g' : GenId}
      {x x' : Site} (hp : s.pc t = .acquire q (.create site (.register g .activate)))
      (hi : s'.mem.ident g = some i) (hx : s'.mem.site g = some x)
      (hi' : s'.mem.ident g' = some i) (hx' : s'.mem.site g' = some x') (hg : s'.mem.Live g)
      (hg' : s.mem.Live g') : g = g' := by
    obtain ⟨hi', hx'⟩ := old hg' hi' hx'
    have hmakes : 0 < (s.pc t).makes g := by rw [hp]; exact isGen_pos g
    have hk := (known_of_reach hs).2 t
    have hacc := (agrees_of_reach hs).2 t
    rw [hp] at hk hacc
    have hig : s.mem.ident g = some i := (hgrow.ident g hk.1.1).symm.trans hi
    have hxg : s.mem.site g = some x := (hgrow.site g hk.1.1).symm.trans hx
    have hd : ¬ s.mem.Dead g := fun hd =>
      hg.not_dead (hd.mono hgrow ((counted_of_reach hs).inert h) hk.1.1)
    obtain ⟨hatt, hst⟩ := attached_of_makes hs hmakes hig hxg hd
    rcases covered_of_reach hs g' i x' hi' hx' hg'.not_dead hacc with hcur | hpos
    · have hslot := Option.some.inj (hcur.1.symm.trans hatt)
      rw [← hslot] at hst
      exact nomatch hst.symm.trans hcur.2
    · obtain ⟨u, hu, hmakes'⟩ := Pool.exists_of_total_pos hpos
      have hslot := Option.some.inj
        (hatt.symm.trans (attached_of_makes hs hmakes' hi' hx' hg'.not_dead).1)
      have hsite := site_of_owner (owner_of_makes hs hmakes' hi' hx')
      rw [← hslot] at hsite
      obtain rfl := hc.eq hs (site_of_owner (owner_of_makes hs hmakes hig hxg)) hsite
      rw [hp] at hmakes'
      exact eq_of_isGen hmakes'
  intro i g g' x x' hi hx hi' hx' hg hg'
  rcases live_step hs h hg with hl | ⟨t, q, site, hat, ht, hp⟩
  · rcases live_step hs h hg' with hl' | ⟨t, q, site, hat, ht, hp⟩
    · exact ih (old hl hi hx).1 (old hl hi hx).2 (old hl' hi' hx').1 (old hl' hi' hx').2 hl hl'
    · exact (only hp hi' hx' hi hx hg' hl).symm
  · rcases live_step hs h hg' with hl' | ⟨t', q', site', hat', ht', hp'⟩
    · exact only hp hi hx hi' hx' hg hl'
    · obtain rfl := Option.some.inj (hat.symm.trans hat')
      have := hp.symm.trans hp'
      injection this with _ this
      injection this with _ this
      injection this

/-! ## Canonical identities -/

/-- Whether an acquisition at this point is a canonical one, where the point tells. -/
def ResourceContext.AcquirePc.canonical? : AcquirePc → Option Bool
  | .create site _ => some site.isSome
  | .start _ => some false
  | .deliver _ | .returned _ => none
  | _ => some true

/-- An acquisition is a canonical one according to its type. -/
def Pc.Typed (cfg : Config R K) : Pc R K E → Prop
  | .acquire q p => ForSome (· = cfg.canonical q.ident.ty) p.canonical?
  | _ => True

/-- The generations of canonical types have sites, the others have none. -/
def Memory.Placed (cfg : Config R K) (m : Memory R K E) : Prop :=
  ∀ g i, m.ident g = some i → (m.site g).isSome = cfg.canonical i.ty

theorem typed_run (hp : p.Typed cfg) :
    p.code.wp cfg t m fun _ p' c => p'.Typed cfg ∧ ForSome (Pc.Typed cfg) c := by
  cases p using Pc.points
  case acquire_guard_remove_entry | supervise_cleanup_entry =>
    refine ⟨⟨trivial, trivial⟩, fun _ => ⟨fun _ _ => ?_, fun _ => ⟨hp, trivial⟩⟩⟩
    dsimp only
    split <;> exact ⟨hp, trivial⟩
  all_goals
    repeat' first
      | exact trivial
      | exact hp
      | apply And.intro
      | intro _

/-- A generation is created with a site if its type is canonical. -/
def Instr.Placed {α : Type} (cfg : Config R K) : Instr R K E α → Prop
  | .newEntry i site _ => site.isSome = cfg.canonical i.ty
  | _ => True

omit [DecidableEq R] [DecidableEq K] in
theorem placed_of_typed (h : p.Typed cfg) : p.code.Placed cfg := by
  cases p using Pc.points
  case acquire_create_newEntry => exact h
  all_goals trivial

theorem wp_placed {α : Type} {ins : Instr R K E α} (hi : ins.Placed cfg) (h : m.Placed cfg) :
    ins.wp cfg t m fun m' _ _ => m'.Placed cfg := by
  cases ins
  case newEntry i site k =>
    intro g j hj
    have hj' : update m.ident m.nextGen (some i) g = some j := hj
    show (update m.site m.nextGen site g).isSome = _
    by_cases hg : g = m.nextGen
    · rw [hg, update_self] at hj' ⊢
      cases hj'
      exact hi
    · rw [update_of_ne hg] at hj' ⊢
      exact h g j hj'
  all_goals
    repeat' first
      | exact trivial
      | exact h
      | apply And.intro
      | intro _

theorem placed_of_reach {s : State R K E} {ok : State R K E → Action R K E → Prop}
    (hs : Reach (step cfg) ok State.new s) : s.mem.Placed cfg ∧ ∀ u, (s.pc u).Typed cfg := by
  refine hs.invariant (fun s => s.mem.Placed cfg ∧ ∀ u, (s.pc u).Typed cfg)
    ⟨fun _ _ h => (nomatch h), fun _ => trivial⟩ ?_
  rintro s a s' ⟨hm, ih⟩ - h
  refine inv_step (Memory.Placed cfg) (fun _ _ p => p.Typed cfg) h hm ih (fun _ u _ => ih u)
    ?_ ?_ ?_ ?_ ?_
  · exact fun t p _ _ _ hp => ((wp_placed (placed_of_typed hp) hm).and (typed_run hp)).mono
      fun _ _ _ h => ⟨⟨h.1, h.2.1⟩, h.2.2⟩
  · rintro t p p' hj - - hp
    cases hj <;> first | exact hp | trivial
  · rintro c m p rfl hc
    cases hc
    case acquire hcan => exact ⟨hm, hcan.symm⟩
    case spawn hcan _ => exact ⟨hm, hcan.symm⟩
    all_goals exact ⟨hm, trivial⟩
  · exact fun _ _ _ => hm
  · rintro m c hh
    cases hh <;> exact ⟨hm, trivial⟩

/-- **Canonical exclusivity.** For a canonical identity `i`: when the executor drops no task, one
thread at most holds the claim, and in any case a second owner's slot is left from a generation that
has finished; one build at most is in flight; from the grant of the claim to the creation of the new
generation, every generation of `i` is dead for good; and two generations of `i` are never both
upgradeable and active. Only a runtime that shuts down drops a task without an abort. It may do so
while the acquisition that creates the generation still settles: the cleanup of the generation then
removes the slot, and the claim is granted again before that acquisition has returned. -/
theorem canonical_exclusivity (hs : Reach (step cfg) ok State.new s)
    (hr : Reach (step cfg) ok s s') (i : Ident R K) (hi : cfg.canonical i.ty = true) :
    ((∀ s a, ok s a → a.KeepsTask) → ∀ t u x y, (s.pc t).owner? = some (i, x) →
        (s.pc u).owner? = some (i, y) → t = u) ∧
      (∀ t u x y, (s.pc t).owner? = some (i, x) → (s.pc u).owner? = some (i, y) →
        t = u ∨ s.mem.Over i x ∨ s.mem.Over i y) ∧
      (∀ t u op op' site site', s.pc t = .acquire ⟨op, i⟩ (.create site .build) →
        s.pc u = .acquire ⟨op', i⟩ (.create site' .build) → t = u) ∧
      (∀ t x, (s.pc t).unmade? = some (i, x) → ∀ g, s.mem.ident g = some i →
        s'.mem.strong g = 0 ∨ s'.mem.control g = .cancelling ∨ s'.mem.control g = .finished) ∧
      ∀ g g', s.mem.ident g = some i → s.mem.ident g' = some i →
        0 < s.mem.strong g → s.mem.control g = .active →
        0 < s.mem.strong g' → s.mem.control g' = .active → g = g' := by
  have hc := sited_of_reach hs
  obtain ⟨hplaced, htyped⟩ := placed_of_reach hs
  have site {g : GenId} (hg : s.mem.ident g = some i) : ∃ x, s.mem.site g = some x :=
    Option.isSome_iff_exists.mp ((hplaced g i hg).trans hi)
  refine ⟨fun hok t u x y ht hu => ?_, fun t u x y ht hu => ?_, fun t u op op' y y' ht hu => ?_,
    fun t x ht g hg => ?_, fun g g' hg hg' h1 h2 h3 h4 => ?_⟩
  · exact (claimed_of_reach hok hs).eq hs (claims_of_owner ht) (claims_of_owner hu)
  · rcases ((hc.owns t).owned ht).2.2 with hx | hx
    · rcases ((hc.owns u).owned hu).2.2 with hy | hy
      · have hsite := site_of_owner hu
        rw [Option.some.inj (hy.symm.trans hx)] at hsite
        exact .inl (hc.eq hs (site_of_owner ht) hsite)
      · exact .inr (.inr hy)
    · exact .inr (.inl hx)
  · have builds {v : Tid} {op : AcquireOp} {y : Option Site}
        (hv : s.pc v = .acquire ⟨op, i⟩ (.create y .build)) :
        ∃ x, (s.pc v).unmade? = some (i, x) := by
      have := htyped v
      rw [hv] at this ⊢
      obtain ⟨x, rfl⟩ := Option.isSome_iff_exists.mp (this.trans hi)
      exact ⟨x, rfl⟩
    obtain ⟨x, hx⟩ := builds ht
    obtain ⟨y, hy⟩ := builds hu
    exact eq_of_clear hs (clear_of_unmade hx) hy
  · have hclear := clear_of_reach hs t
    unfold Pc.Clear at hclear
    rw [clear_of_unmade ht] at hclear
    obtain ⟨y, hy⟩ := site hg
    have hdead := hclear g hg (by rw [hy]; exact Option.some_ne_none _)
    have hlt : g < s.mem.nextGen := by
      by_contra hge
      rw [hc.sites.fresh g (Nat.le_of_not_lt hge)] at hg
      cases hg
    exact control_of_dead (hdead.imp (dead_of_reach hs hr hlt)
      fun h => h.trans ((grows_of_reach hr).control g))
  · obtain ⟨x, hx⟩ := site hg
    obtain ⟨x', hx'⟩ := site hg'
    exact live_of_reach hs hg hx hg' hx' ⟨h1, h2⟩ ⟨h3, h4⟩

/-- A generation is created and its only lease dropped; then another caller is granted the claim. -/
def replacedRun : List (Action Unit Unit Unit) :=
  .call (.acquire ⟨.getOrSpawn, ⟨(), ()⟩⟩) :: List.replicate 26 (.run 0 .go) ++
    .release .outside 0 :: List.replicate 4 (.run 2 .go) ++
    .call (.acquire ⟨.spawn, ⟨(), ()⟩⟩) :: List.replicate 6 (.run 3 .go)

theorem replacedRun_dead :
    ((afterwards true replacedRun).get (by decide +kernel)).mem.strong 0 = 0 ∨
      ((afterwards true replacedRun).get (by decide +kernel)).mem.control 0 = .cancelling ∨
      ((afterwards true replacedRun).get (by decide +kernel)).mem.control 0 = .finished :=
  (canonical_exclusivity
    (reach_afterwards Action.KeepsTask (by decide +kernel) (by decide +kernel)) .refl
    ⟨(), ()⟩ rfl).2.2.2.1 3 ⟨0, 2⟩ (by decide +kernel) 0 (by decide +kernel)

end Resourcery
