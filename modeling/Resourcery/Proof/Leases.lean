import Resourcery.Logic.Points

/-!
# Leases

The strong count of an entry is the number of `ResourceRef`s that are held plus what the calls in
progress hold (`Pc.held`): no slot, index, supervisor, cleanup closure or observer counts. Every
step moves the three quantities together (`Balanced`).
-/

namespace Resourcery

open Interleaving Function Transition ResourceContext

variable {R K E : Type}

/-! ## What a thread holds -/

/-- One strong reference to `x`, counted for `g`. -/
def one (x g : GenId) : ℕ := if x = g then 1 else 0

namespace Registry

/-- The strong references to `g` held by a claim. -/
def RegistryClaim.held (g : GenId) : RegistryClaim → ℕ
  | .active x => one x g
  | _ => 0

@[inherit_doc RegistryClaim.held]
def ClaimPc.held (g : GenId) : ClaimPc → ℕ
  | .tryAcquire _ _ x _ | .dropResource _ _ x | .dropFound x => one x g
  | .dropState _ claim | .dropEntry claim => claim.held g
  | _ => 0

end Registry

namespace ResourceContext

/-- The strong references to `g` held by `create`. -/
def CreatePc.held (g : GenId) : CreatePc → ℕ
  | .spawnTask x | .register x _ | .insertLive x _ | .spawnSupervisor x _ | .abort x
  | .cancel x _ | .dropStart x | .dropEntry x => one x g
  | _ => 0

/-- The strong references to `g` held by an acquisition. -/
def AcquirePc.held (g : GenId) : AcquirePc → ℕ
  | .claim p => p.held g
  | .create _ p => p.held g
  | .settle _ _ x _ | .start x | .deliver x => one x g
  | _ => 0

/-- The strong references to `g` held by `get` or `status`. -/
def StatusPc.held (g : GenId) : StatusPc → ℕ
  | .tryAcquire _ x _ | .dropEntry _ x | .dropState _ (.active x) | .deliver x => one x g
  | _ => 0

/-- The strong references to `g` held by `all`. -/
def AllPc.held (g : GenId) : AllPc → ℕ
  | .filter _ found => found.count g
  | .tryAcquire x _ found _ | .dropEntry x _ found => found.count g + one x g
  | _ => 0

end ResourceContext

/-- The strong references to `g` held by `WeakResourceRef::upgrade`. -/
def WeakResourceRef.UpgradePc.held (x g : GenId) : WeakResourceRef.UpgradePc → ℕ
  | .domain | .tryAcquire _ | .dropEntry | .deliver => one x g
  | _ => 0

/-- The strong references to `g` held by a thread. -/
def Pc.held (g : GenId) : Pc R K E → ℕ
  | .acquire _ p => p.held g
  | .discover _ _ p => p.held g
  | .all _ p => p.held g
  | .upgrade x p => p.held x g
  | _ => 0

/-- The number of `ResourceRef`s to `g` among `refs`. -/
def leasesOf (refs : List (Holder × GenId)) (g : GenId) : ℕ := (refs.map Prod.snd).count g

/-- The number of `ResourceRef`s to `g` that are held. -/
def Memory.leases (m : Memory R K E) (g : GenId) : ℕ := leasesOf m.refs g

/-- From a memory where a thread holds `h` references to `g` to one where it holds `h'`, the count
of the entry changes with the references. -/
def Balanced (g : GenId) (m : Memory R K E) (h : ℕ) (m' : Memory R K E) (h' : ℕ) : Prop :=
  m'.strong g + m.leases g + h = m.strong g + m'.leases g + h'

variable {cfg : Config R K} {t : Tid} {m m' : Memory R K E} {p : Pc R K E} {g x : GenId}

theorem one_self : one g g = 1 := if_pos rfl

theorem one_of_ne (h : x ≠ g) : one x g = 0 := if_neg h

theorem Balanced.refl (m : Memory R K E) (h : ℕ) : Balanced g m h m h := rfl

theorem strong_succ (m : Memory R K E) (x g : GenId) :
    update m.strong x (m.strong x + 1) g = m.strong g + one x g := by
  by_cases h : x = g
  · rw [h, update_self, one_self]
  · rw [update_of_ne (Ne.symm h), one_of_ne h, Nat.add_zero]

theorem strong_pred (hx : 0 < m.strong x) (g : GenId) :
    update m.strong x (m.strong x - 1) g + one x g = m.strong g := by
  by_cases h : x = g
  · subst h
    rw [update_self, one_self]
    omega
  · rw [update_of_ne (Ne.symm h), one_of_ne h, Nat.add_zero]

theorem strong_last (hx : m.strong x = 1) (g : GenId) :
    update m.strong x 0 g + one x g = m.strong g := by
  simpa [hx] using strong_pred (show 0 < m.strong x by omega) g

theorem count_singleton (x g : GenId) : [x].count g = one x g := by
  by_cases h : x = g
  · rw [h, one_self, List.count_singleton_self]
  · rw [one_of_ne h, List.count_eq_zero_of_not_mem (by simpa using Ne.symm h)]

theorem leasesOf_deliver (gs : List GenId) (refs : List (Holder × GenId)) (g : GenId) :
    leasesOf (gs.map (Prod.mk Holder.outside) ++ refs) g = gs.count g + leasesOf refs g := by
  unfold leasesOf
  rw [List.map_append, List.count_append, List.map_map,
    show Prod.snd ∘ Prod.mk Holder.outside = (id : GenId → GenId) from rfl, List.map_id]

theorem leasesOf_cons (h : Holder) (x : GenId) (refs : List (Holder × GenId)) (g : GenId) :
    leasesOf ((h, x) :: refs) g = leasesOf refs g + one x g := by
  show (x :: refs.map Prod.snd).count g = (refs.map Prod.snd).count g + one x g
  by_cases hx : x = g
  · rw [hx, List.count_cons_self, one_self]
  · rw [List.count_cons_of_ne hx, one_of_ne hx, Nat.add_zero]

theorem leasesOf_erase {h : Holder} {refs : List (Holder × GenId)} (hm : (h, x) ∈ refs)
    (g : GenId) : leasesOf (refs.erase (h, x)) g + one x g = leasesOf refs g := by
  rw [← leasesOf_cons]
  exact (((List.perm_cons_erase hm).map Prod.snd).count_eq g).symm

/-! ### The ways in which references change hands -/

theorem Balanced.upgrade (h : ℕ) :
    Balanced g m h { m with strong := update m.strong x (m.strong x + 1) } (h + one x g) := by
  have := strong_succ m x g
  show update m.strong x (m.strong x + 1) g + m.leases g + h = m.strong g + m.leases g + _
  omega

theorem Balanced.drop (hx : 0 < m.strong x) (h : ℕ) :
    Balanced g m (h + one x g) { m with strong := update m.strong x (m.strong x - 1) } h := by
  have := strong_pred hx g
  show update m.strong x (m.strong x - 1) g + m.leases g + _ = m.strong g + m.leases g + h
  omega

theorem Balanced.dropLast (hx : m.strong x = 1) (h : ℕ) :
    Balanced g m (h + one x g) { m with strong := update m.strong x 0 } h := by
  have := strong_last hx g
  show update m.strong x 0 g + m.leases g + _ = m.strong g + m.leases g + h
  omega

theorem Balanced.deliver (gs : List GenId) :
    Balanced g m (gs.count g) { m with refs := gs.map (Prod.mk Holder.outside) ++ m.refs } 0 := by
  have := leasesOf_deliver gs m.refs g
  show m.strong g + leasesOf m.refs g + _ =
    m.strong g + leasesOf (gs.map (Prod.mk Holder.outside) ++ m.refs) g + 0
  omega

variable [DecidableEq R] [DecidableEq K]

/-- A step moves the count of an entry and the references to it together. -/
theorem wp_balanced (g : GenId) (hheld : ∀ x, p.held x ≤ m.strong x)
    (hnew : m.strong m.nextGen = 0) :
    p.code.wp cfg t m fun m' p' c =>
      Balanced g m (p.held g) m' (p'.held g + (c.map (Pc.held g)).getD 0) := by
  have pos {x : GenId} {h : ℕ} (hx : h + one x x ≤ m.strong x) : 0 < m.strong x := by
    rw [one_self] at hx; omega
  have upgrade (x : GenId) : Balanced g m 0
      { m with strong := update m.strong x (m.strong x + 1) } (one x g) := by
    simpa using Balanced.upgrade 0
  have drop {x : GenId} (hx : one x x ≤ m.strong x) : Balanced g m (one x g)
      { m with strong := update m.strong x (m.strong x - 1) } 0 := by
    rw [one_self] at hx
    simpa using Balanced.drop hx 0
  have dropLast {x : GenId} (hx : m.strong x = 1) : Balanced g m (one x g)
      { m with strong := update m.strong x 0 } 0 := by
    simpa using Balanced.dropLast hx 0
  have deliver (x : GenId) : Balanced g m (one x g)
      { m with refs := [x].map (Prod.mk Holder.outside) ++ m.refs } 0 := by
    rw [← count_singleton]
    exact .deliver _
  have newEntry : Balanced g m 0 { m with strong := update m.strong m.nextGen 1 }
      (one m.nextGen g) := by
    simpa [hnew] using upgrade m.nextGen
  cases p using Pc.points
  case acquire_claim_upgrade | discover_upgrade | upgrade_entry =>
    exact ⟨fun _ => upgrade _, fun _ => rfl⟩
  case all_filter_cons => exact ⟨fun _ => .upgrade _, fun _ => rfl⟩
  case acquire_claim_dropFound_spawn | acquire_claim_dropFound_getOrSpawn
      | acquire_claim_dropFound_tryGetOrSpawn | acquire_claim_dropResource
      | acquire_create_dropEntry | acquire_settle_dropResource | discover_dropEntry
      | upgrade_dropEntry =>
    exact ⟨fun h1 => dropLast h1, fun _ => drop (hheld _)⟩
  case all_dropEntry => exact ⟨fun h1 => .dropLast h1 _, fun _ => .drop (pos (hheld _)) _⟩
  case acquire_deliver x | discover_deliver x | upgrade_deliver x => exact deliver x
  case all_filter_nil => exact .deliver _
  case acquire_create_newEntry => exact newEntry
  case all_tryAcquire_activeAgain x _ found =>
    refine ⟨fun _ => rfl, fun _ => ?_, fun _ => rfl, fun _ => rfl⟩
    have hcount : (found ++ [x]).count g = found.count g + one x g := by
      rw [List.count_append, count_singleton]
    exact congrArg (m.strong g + m.leases g + ·) hcount.symm
  case acquire_guard_remove_entry | supervise_cleanup_entry =>
    refine ⟨rfl, fun _ => ⟨fun _ _ => ?_, fun _ => rfl⟩⟩
    dsimp only
    split <;> rfl
  all_goals
    repeat' first
      | exact trivial
      | exact Balanced.refl m _
      | apply And.intro
      | intro _

/-- The count of an entry only becomes positive when the entry is created. -/
def Inert (m m' : Memory R K E) : Prop :=
  m.nextGen ≤ m'.nextGen ∧
    ∀ g, m.strong g = 0 → m'.strong g = 0 ∨ g = m.nextGen ∧ g < m'.nextGen

omit [DecidableEq R] [DecidableEq K] in
theorem Inert.of_eq (h : m'.strong = m.strong) (hn : m.nextGen ≤ m'.nextGen) : Inert m m' :=
  ⟨hn, fun g hg => .inl (by rw [h, hg])⟩

omit [DecidableEq R] [DecidableEq K] in
theorem Inert.succ (hx : 0 < m.strong x)
    (h : m'.strong = update m.strong x (m.strong x + 1)) (hn : m'.nextGen = m.nextGen) :
    Inert m m' := by
  refine ⟨Nat.le_of_eq hn.symm, fun g hg => .inl ?_⟩
  have hne : g ≠ x := fun e => by rw [← e] at hx; omega
  rw [h, update_of_ne hne, hg]

omit [DecidableEq R] [DecidableEq K] in
theorem Inert.pred {k : ℕ} (hk : k ≤ m.strong x) (h : m'.strong = update m.strong x k)
    (hn : m'.nextGen = m.nextGen) : Inert m m' := by
  refine ⟨Nat.le_of_eq hn.symm, fun g hg => .inl ?_⟩
  rw [h]
  by_cases hgx : g = x
  · rw [hgx, update_self]
    rw [hgx] at hg
    omega
  · rw [update_of_ne hgx, hg]

theorem wp_inert {α : Type} (ins : Instr R K E α) : ins.wp cfg t m fun m' _ _ => Inert m m' := by
  cases ins
  case upgrade x k => exact ⟨fun hx => .succ hx rfl rfl, fun _ => .of_eq rfl (Nat.le_refl _)⟩
  case dropStrong x destructor k =>
    exact ⟨fun _ => .pred (Nat.zero_le _) rfl rfl, fun _ => .pred (Nat.sub_le _ _) rfl rfl⟩
  case newEntry i site k =>
    refine ⟨Nat.le_succ _, fun g hg => ?_⟩
    by_cases hgx : g = m.nextGen
    · exact .inr ⟨hgx, by rw [hgx]; exact Nat.lt_succ_self _⟩
    · exact .inl ((update_of_ne hgx _ _).trans hg)
  all_goals
    repeat' first
      | exact trivial
      | exact .of_eq rfl (Nat.le_refl _)
      | apply And.intro
      | intro _

/-! ## The count of an entry -/

/-- The references to `g` that are held, and those the threads hold. -/
structure Counted (s : State R K E) : Prop where
  strong : ∀ g, s.mem.strong g = s.mem.leases g + s.total (Pc.held g)
  fresh : ∀ g, s.mem.nextGen ≤ g → s.mem.strong g = 0

variable {s s' : State R K E} {a : Action R K E}

omit [DecidableEq R] [DecidableEq K] in
theorem Counted.held_le (h : Counted s) (ht : t < s.size) (x : GenId) :
    (s.pc t).held x ≤ s.mem.strong x := by
  have := Pool.le_total (Pc.held x) ht
  have := h.strong x
  omega

omit [DecidableEq R] [DecidableEq K] in
theorem Counted.pos_of_mem (h : Counted s) {holder : Holder} (hm : (holder, g) ∈ s.mem.refs) :
    0 < s.mem.strong g := by
  have : 0 < s.mem.leases g :=
    List.count_pos_iff.mpr (List.mem_map.mpr ⟨_, hm, rfl⟩)
  have := h.strong g
  omega

omit [DecidableEq R] [DecidableEq K] in
/-- What the holders do moves the count and their references together. -/
theorem HoldCases.balanced {c : Option (Pc R K E)} (h : HoldCases m a m' c)
    (hpos : ∀ holder x, (holder, x) ∈ m.refs → 0 < m.strong x) (g : GenId) :
    Balanced g m 0 m' ((c.map (Pc.held g)).getD 0) := by
  cases h
  case clone h x hm ha =>
    have := leasesOf_cons h x m.refs g
    have := strong_succ m x g
    show update m.strong x (m.strong x + 1) g + leasesOf m.refs g + 0 =
      m.strong g + leasesOf ((h, x) :: m.refs) g + 0
    omega
  case move h h' x hm ha ha' =>
    have := leasesOf_cons h' x (m.refs.erase (h, x)) g
    have := leasesOf_erase hm g
    show m.strong g + leasesOf m.refs g + 0 =
      m.strong g + leasesOf ((h', x) :: m.refs.erase (h, x)) g + 0
    omega
  case release h x hm ho =>
    have := leasesOf_erase hm g
    have := strong_pred (hpos h x hm) g
    show update m.strong x (m.strong x - 1) g + leasesOf m.refs g + 0 =
      m.strong g + leasesOf (m.refs.erase (h, x)) g + 0
    omega
  case releaseLast h x hm h1 =>
    have := leasesOf_erase hm g
    have := strong_last h1 g
    show update m.strong x 0 g + leasesOf m.refs g + 0 =
      m.strong g + leasesOf (m.refs.erase (h, x)) g + 0
    omega
  all_goals rfl

theorem Counted.inert (h : step cfg s a = some s') (hc : Counted s) : Inert s.mem s'.mem := by
  refine mem_step (Inert s.mem) h (.of_eq rfl (Nat.le_refl _)) ?_ ?_ ?_ ?_
  · exact fun t p _ _ _ => wp_inert _
  · rintro c m p - hc
    cases hc <;> exact .of_eq rfl (Nat.le_refl _)
  · exact fun _ _ _ => .of_eq rfl (Nat.le_refl _)
  · rintro m c hh
    cases hh
    case clone hm _ => exact .succ (hc.pos_of_mem hm) rfl rfl
    case release => exact .pred (Nat.sub_le _ _) rfl rfl
    case releaseLast => exact .pred (Nat.zero_le _) rfl rfl
    all_goals exact .of_eq rfl (Nat.le_refl _)

theorem Counted.step (h : step cfg s a = some s') (hc : Counted s) : Counted s' := by
  have hin := hc.inert h
  refine ⟨fun g => ?_, fun g hg => ?_⟩
  · refine total_step (Pc.held g) (fun m n => m.strong g = m.leases g + n) h ?_ ?_ ?_ ?_ ?_
    · rintro t p k - rfl hr hk
      refine (wp_balanced g (hc.held_le hr.1) (hc.fresh _ (Nat.le_refl _))).mono
        fun m p' c hb => ?_
      have := hc.strong g
      unfold Balanced at hb
      omega
    · rintro t p p' k hj - hk
      have hs := hc.strong g
      rw [hk] at hs
      cases hj <;> exact hs
    · rintro c m p - hcall
      have hs := hc.strong g
      cases hcall <;> exact hs
    · exact fun _ _ _ => hc.strong g
    · rintro m c hh
      have hb := hh.balanced (fun _ _ => hc.pos_of_mem) g
      have := hc.strong g
      unfold Balanced at hb
      omega
  · rcases hin.2 g (hc.fresh g (hin.1.trans hg)) with h0 | ⟨-, hlt⟩
    · exact h0
    · exact absurd hlt (Nat.not_lt.mpr hg)

/-- **Lease counting.** -/
theorem counted_of_reach {ok : State R K E → Action R K E → Prop}
    (hr : Reach (Resourcery.step cfg) ok State.new s) : Counted s :=
  hr.invariant Counted ⟨fun _ => rfl, fun _ _ => rfl⟩ fun _ _ _ hc _ h => hc.step h

/-- **An entry does not come back.** Once its count is zero it stays so. -/
theorem dead_of_reach {ok : State R K E → Action R K E → Prop}
    (hs : Reach (Resourcery.step cfg) ok State.new s) (hr : Reach (Resourcery.step cfg) ok s s')
    (hg : g < s.mem.nextGen) (h0 : s.mem.strong g = 0) : s'.mem.strong g = 0 := by
  refine (hr.invariant_of_reach (fun u => g < u.mem.nextGen ∧ u.mem.strong g = 0) ⟨hg, h0⟩ ?_).2
  rintro u a u' hu ⟨hlt, h0⟩ - h
  have hin := (counted_of_reach (hs.trans hu)).inert h
  refine ⟨hlt.trans_le hin.1, (hin.2 g h0).resolve_right fun he => ?_⟩
  exact absurd hlt (by rw [he.1]; exact Nat.lt_irrefl _)

end Resourcery
