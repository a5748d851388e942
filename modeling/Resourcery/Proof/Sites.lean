import Resourcery.Proof.Ending
import Resourcery.Proof.Slots

/-!
# Sites

An acquisition that has been granted the claim on an identity owns a slot of it until it activates
the slot or removes it. A slot has one owner at most, and keeps the state the owner has given it; it
is attached, unless the generation the owner has created for it has come to its end and has been
cleaned up (`sited_of_reach`). One generation at most is created for each number of each slot, and an
active slot that is not attached points to a finished one.
-/

namespace Resourcery

open Interleaving Function Transition ResourceContext

variable {R K E : Type}

/-! ## The claim at a program point -/

/-- The claim has been granted. -/
def Registry.ClaimPc.owner? : Registry.ClaimPc → Option Site
  | .dropState _ (.owner n generation) | .dropEntry (.owner n generation) => some ⟨n, generation⟩
  | _ => none

/-- The slot has not been activated yet. -/
def ResourceContext.SettlePc.pending : SettlePc → Bool
  | .dropState | .notify | .start => false
  | _ => true

/-- The site an acquisition owns. -/
def ResourceContext.AcquirePc.owner? : AcquirePc → Option Site
  | .claim p => p.owner?
  | .cloneKey n generation | .cloneCleanupKey n generation => some ⟨n, generation⟩
  | .create site _ => site
  | .settle n generation _ p => bif p.pending then some ⟨n, generation⟩ else none
  | .guard _ _ _ (.remove .dropEntry) => none
  | .guard n generation _ (.remove _) => some ⟨n, generation⟩
  | _ => none

/-- The site an acquisition owns and has not created a generation for. -/
def ResourceContext.AcquirePc.unmade? : AcquirePc → Option Site
  | .claim p => p.owner?
  | .cloneKey n generation | .cloneCleanupKey n generation => some ⟨n, generation⟩
  | .create site .accepting | .create site .build | .create site .newEntry => site
  | _ => none

/-- The site an acquisition is giving up. -/
def ResourceContext.AcquirePc.givesUp? : AcquirePc → Option Site
  | .settle n generation _ .lateStart | .settle n generation _ .dropResource =>
    some ⟨n, generation⟩
  | .guard _ _ _ (.remove .dropEntry) => none
  | .guard n generation _ (.remove _) => some ⟨n, generation⟩
  | _ => none

namespace Pc

/-- The claim a thread holds. -/
def owner? : Pc R K E → Option (Ident R K × Site)
  | .acquire q p => p.owner?.map (q.ident, ·)
  | _ => none

@[inherit_doc AcquirePc.unmade?]
def unmade? : Pc R K E → Option (Ident R K × Site)
  | .acquire q p => p.unmade?.map (q.ident, ·)
  | _ => none

@[inherit_doc AcquirePc.givesUp?]
def givesUp? : Pc R K E → Option (Ident R K × Site)
  | .acquire q p => p.givesUp?.map (q.ident, ·)
  | _ => none

/-- The site whose entry a cleanup is about to remove. -/
def cleans? : Pc R K E → Option (Ident R K × Site)
  | .supervise i _ _ _ (.cleanup x _ .remove) => some (i, x)
  | _ => none

/-- The slot a thread owns, or is about to take over. -/
def site? : Pc R K E → Option (Ident R K × ℕ)
  | .acquire q (.claim (.takeover n _ _)) => some (q.ident, n)
  | p => p.owner?.map fun o => (o.1, o.2.slot)

end Pc

/-! ## What an owner knows -/

/-- The generation of the site `x` of `i` has come to its end. -/
def Memory.Over (m : Memory R K E) (i : Ident R K) (x : Site) : Prop :=
  ∃ g, m.Made i (some x) g ∧ m.control g = .finished

/-- The site `x` of `i` is owned: its slot is starting, and attached until the generation of the
site has come to its end. -/
def Memory.Owned (m : Memory R K E) (i : Ident R K) (x : Site) : Prop :=
  x.slot < m.nextSlot i ∧ m.state i x.slot = .starting x.generation ∧
    (m.Attached i x.slot ∨ m.Over i x)

/-- No generation has been created for the site `x` of `i`. -/
def Memory.Unused (m : Memory R K E) (i : Ident R K) (x : Site) : Prop :=
  ∀ g, m.ident g = some i → m.site g ≠ some x

/-- What an acquisition knows of the site it owns, and a cleanup of the one it removes. -/
def Pc.Owns (m : Memory R K E) (p : Pc R K E) : Prop :=
  ForSome (fun o => m.Owned o.1 o.2) p.owner? ∧
    ForSome (fun o => m.Unused o.1 o.2) p.unmade? ∧
    ForSome (fun o => m.Accepting → m.Unused o.1 o.2) p.givesUp? ∧
    ForSome (fun o => (m.state o.1 o.2.slot).generation = o.2.generation) p.cleans?

/-- The sites of the generations: one generation for each, of a slot that has been allocated, and
not ahead of the slot's state. An active slot points to the registered generation of its site. -/
structure Sites (m : Memory R K E) : Prop where
  fresh : ∀ g, m.nextGen ≤ g → m.ident g = none
  bound : ∀ g i x, m.ident g = some i → m.site g = some x →
    x.slot < m.nextSlot i ∧ x.generation ≤ (m.state i x.slot).generation
  inj : ∀ g g' i x, m.ident g = some i → m.site g = some x → m.ident g' = some i →
    m.site g' = some x → g = g'
  active : ∀ i n generation g, m.state i n = .active generation g →
    m.Made i (some ⟨n, generation⟩) g ∧ m.taskId g ≠ none

variable {cfg : Config R K} {t : Tid} {m m' : Memory R K E} {p : Pc R K E} {g : GenId}
  {i : Ident R K} {x : Site}

theorem owner_of_unmade (h : p.unmade? = some (i, x)) : p.owner? = some (i, x) := by
  cases_type* Pc AcquirePc CreatePc
  all_goals first | exact h | cases h

theorem owner_of_givesUp (h : p.givesUp? = some (i, x)) : p.owner? = some (i, x) := by
  cases_type* Pc AcquirePc SettlePc GuardPc Registry.RemovePc
  all_goals first | exact h | cases h

theorem Pc.Owns.owned (hp : p.Owns m) (h : p.owner? = some (i, x)) : m.Owned i x := by
  have := hp.1
  rw [h] at this
  exact this

theorem Pc.Owns.unused (hp : p.Owns m) (h : p.unmade? = some (i, x)) : m.Unused i x := by
  have := hp.2.1
  rw [h] at this
  exact this


theorem site_of_owner (h : p.owner? = some (i, x)) : p.site? = some (i, x.slot) := by
  unfold Pc.site?
  split
  · cases h
  · rw [h]
    rfl

/-- A thread that owns no slot, and yet has one, is about to take it over. -/
theorem site_cases {n : ℕ} (h : p.site? = some (i, n)) :
    (∃ x, p.owner? = some (i, x) ∧ x.slot = n) ∨
      ∃ q generation g, p = .acquire q (.claim (.takeover n generation g)) ∧ q.ident = i := by
  unfold Pc.site? at h
  split at h
  · cases h
    exact .inr ⟨_, _, _, rfl, rfl⟩
  · obtain ⟨⟨j, x⟩, hx, he⟩ := Option.map_eq_some_iff.mp h
    cases he
    exact .inl ⟨x, hx, rfl⟩

/-! ## What others leave to an owner -/

theorem Memory.Over.mono (h : m.Over i x) (hg : Grows m m') : m'.Over i x := by
  obtain ⟨g, hm, hf⟩ := h
  exact ⟨g, hm.mono hg, hg.finished hf⟩

/-- What leaves the state of the slot `n` of `i` and its generations alone. -/
structure Apart (i : Ident R K) (n : ℕ) (m m' : Memory R K E) : Prop where
  state : n < m.nextSlot i → m'.state i n = m.state i n
  made : ∀ g x, x.slot = n → m'.ident g = some i → m'.site g = some x →
    m.ident g = some i ∧ m.site g = some x

theorem Apart.of_eq {n : ℕ} (h1 : m'.state = m.state) (h2 : m'.ident = m.ident)
    (h3 : m'.site = m.site) : Apart i n m m' :=
  ⟨fun _ => congrFun (congrFun h1 i) n, fun _ _ _ h h' => ⟨h2 ▸ h, h3 ▸ h'⟩⟩

theorem Memory.Unused.apart (h : m.Unused i x) (ha : Apart i x.slot m m') : m'.Unused i x :=
  fun g hi hx => h g (ha.made g x rfl hi hx).1 (ha.made g x rfl hi hx).2

/-- The slot an instruction writes to, or for which it creates a generation. -/
def Instr.writes? {α : Type} : Instr R K E α → Option (Ident R K × ℕ)
  | .storeState i n _ _ => some (i, n)
  | .newEntry i (some x) _ => some (i, x.slot)
  | _ => none

theorem site_of_code {n : ℕ} (h : p.code.writes? = some (i, n)) : p.site? = some (i, n) := by
  revert h
  cases p using Pc.points
  case' acquire_create_newEntry site => cases site
  all_goals
    intro h
    cases h
  all_goals rfl

/-- An instruction changes the entry of `i` while the slot of `x` is attached only when the
generation of `x` has come to its end. -/
def Instr.Covers {α : Type} (m : Memory R K E) (i : Ident R K) (x : Site) : Instr R K E α → Prop
  | .insertSlot j _ | .removeEntry j _ => j = i → m.Attached i x.slot → m.Over i x
  | _ => True

/-- Whoever changes the entry of `i` removes its own slot or that of a generation it has cleaned
up. -/
theorem covers_of_owns (hx : m.Owned i x) (hne : p.site? ≠ some (i, x.slot)) (ho : p.Owns m)
    (hs : p.Sees m) (hk : p.Known m) (hj : p.Joined m) : p.code.Covers m i x := by
  cases p using Pc.points
  case acquire_claim_insert =>
    rintro rfl hatt
    exact nomatch hatt.symm.trans hs
  case acquire_guard_remove_remove q n generation result =>
    rintro rfl hatt
    obtain rfl : x.slot = n := Option.some.inj (hatt.symm.trans hs)
    exact absurd rfl hne
  case supervise_cleanup_remove j g id site y outcome =>
    rintro rfl hatt
    have hslot : x.slot = y.slot := Option.some.inj (hatt.symm.trans hs)
    have hgen : (m.state j y.slot).generation = y.generation := ho.2.2.2
    rw [← hslot, hx.2.1] at hgen
    obtain rfl : x = y := by
      cases x; cases y; cases hslot; cases hgen; rfl
    obtain ⟨hmade, -, hsite⟩ := hk
    exact ⟨g, by rw [← show site = some x from hsite]; exact hmade, hj.2⟩
  all_goals trivial

variable [DecidableEq R] [DecidableEq K]

theorem update₂_row {β γ δ : Type} [DecidableEq β] [DecidableEq γ] (f : β → γ → δ) {a a' : β}
    (h : a' ≠ a) (b : γ) (c : δ) : update₂ f a b c a' = f a' := by
  funext y
  simp [h]

theorem wp_apart {α : Type} {ins : Instr R K E α} {n : ℕ} (h : ins.writes? ≠ some (i, n)) :
    ins.wp cfg t m fun m' _ _ => Apart i n m m' := by
  cases ins
  case storeState j k st _ =>
    refine ⟨fun _ => ?_, fun _ _ _ h h' => ⟨h, h'⟩⟩
    show update₂ m.state j k st i n = _
    rw [update₂_apply, if_neg fun e => h (by rw [e.1, e.2]; rfl)]
  case insertSlot j _ =>
    refine ⟨fun hn => ?_, fun _ _ _ h h' => ⟨h, h'⟩⟩
    show update₂ m.state j (m.nextSlot j) (.starting 1) i n = _
    rw [update₂_apply, if_neg fun e => ?_]
    obtain ⟨rfl, rfl⟩ := e
    exact Nat.lt_irrefl _ hn
  case newEntry j site k =>
    refine ⟨fun _ => rfl, fun g x hn hi hx => ?_⟩
    have hi' : update m.ident m.nextGen (some j) g = some i := hi
    have hx' : update m.site m.nextGen site g = some x := hx
    by_cases hg : g = m.nextGen
    · rw [hg, update_self] at hi' hx'
      subst hx'
      cases hi'
      exact absurd (congrArg (fun n => some (i, n)) hn) h
    · rw [update_of_ne hg] at hi' hx'
      exact ⟨hi', hx'⟩
  all_goals
    repeat' first
      | exact trivial
      | apply And.intro
      | intro _
      | exact Apart.of_eq rfl rfl rfl

/-- A step of a thread that does not have the slot `n` of `i` leaves it alone. -/
theorem apart_step {s s' : State R K E} {a : Action R K E} {n : ℕ} (h : step cfg s a = some s')
    (hc : ∀ t, a.actor = some t → s.Ready t → (s.pc t).site? ≠ some (i, n)) :
    Apart i n s.mem s'.mem := by
  refine mem_step (Apart i n s.mem) h ?_ ?_ ?_ ?_ ?_
  · exact .of_eq rfl rfl rfl
  · rintro t p hat rfl hr
    exact wp_apart fun hcode => hc t hat hr (site_of_code hcode)
  · rintro c m p - hcall
    cases hcall <;> exact .of_eq rfl rfl rfl
  · exact fun _ _ _ => .of_eq rfl rfl rfl
  · rintro m c hh
    cases hh <;> exact .of_eq rfl rfl rfl

theorem wp_covers {α : Type} {ins : Instr R K E α} (hc : ins.Covers m i x)
    (h : m.Attached i x.slot ∨ m.Over i x) :
    ins.wp cfg t m fun m' _ _ => m'.Attached i x.slot ∨ m.Over i x := by
  cases ins
  case insertSlot j k =>
    by_cases hj : j = i
    · exact .inr (h.elim (hc hj) id)
    · exact h.imp_left fun h => (update_of_ne (Ne.symm hj) _ _).trans h
  case removeEntry j k =>
    by_cases hj : j = i
    · exact .inr (h.elim (hc hj) id)
    · exact h.imp_left fun h => (update_of_ne (Ne.symm hj) _ _).trans h
  all_goals
    repeat' first
      | exact trivial
      | exact h
      | apply And.intro
      | intro _

/-! ## Counting the owners -/

/-- Whether a thread has the slot `n` of `i`. -/
def Pc.sites (i : Ident R K) (n : ℕ) (p : Pc R K E) : ℕ := if p.site? = some (i, n) then 1 else 0

theorem sites_pos {n : ℕ} : 0 < p.sites i n ↔ p.site? = some (i, n) := by
  unfold Pc.sites
  split_ifs with h <;> simp [h]

theorem sites_le_one {n : ℕ} (p : Pc R K E) : p.sites i n ≤ 1 := by
  unfold Pc.sites
  split_ifs <;> omega

/-- A thread at this point is about to get the slot `n` of `i`. -/
def Pc.Takes (m : Memory R K E) (i : Ident R K) (n : ℕ) : Pc R K E → Prop
  | .acquire q (.claim .insert) => q.ident = i ∧ n = m.nextSlot i
  | .acquire q (.claim (.recheck k _ _)) => q.ident = i ∧ n = k
  | _ => False

theorem wp_slots (i : Ident R K) (n : ℕ) : p.code.wp cfg t m fun _ p' c =>
    p'.sites i n + (c.map (Pc.sites i n)).getD 0 ≤ p.sites i n ∨
      p.Takes m i n ∧ p'.sites i n ≤ 1 ∧ c = none := by
  cases p using Pc.points
  case' acquire_claim_dropState claim => cases claim
  case acquire_claim_insert q =>
    by_cases h : q.ident = i ∧ n = m.nextSlot i
    · exact .inr ⟨h, sites_le_one _, rfl⟩
    · refine .inl (Nat.le_of_eq (if_neg fun e => h ?_))
      cases e
      exact ⟨rfl, rfl⟩
  case acquire_claim_recheck q k _ _ =>
    refine ⟨fun _ => ?_, fun _ => .inl (Nat.zero_le _)⟩
    by_cases h : q.ident = i ∧ n = k
    · exact .inr ⟨h, sites_le_one _, rfl⟩
    · refine .inl (Nat.le_of_eq (if_neg fun e => h ?_))
      cases e
      exact ⟨rfl, rfl⟩
  case acquire_guard_remove_entry | supervise_cleanup_entry =>
    refine ⟨.inl (Nat.zero_le _), fun _ => ⟨fun _ _ => ?_, fun _ => .inl (Nat.zero_le _)⟩⟩
    dsimp only
    split
    · exact .inl (Nat.le_refl _)
    · exact .inl (Nat.zero_le _)
  all_goals
    repeat' first
      | exact trivial
      | apply And.intro
      | intro _
      | exact .inl (Nat.le_refl _)
      | exact .inl (Nat.zero_le _)

/-! ## The sites of the generations -/

/-- The numbers of a slot's generations go up, and a generation is created at an unused site. -/
def Instr.Sited {α : Type} (m : Memory R K E) : Instr R K E α → Prop
  | .newEntry i site _ => ∀ x, site = some x → m.Unused i x ∧ x.slot < m.nextSlot i ∧
    x.generation ≤ (m.state i x.slot).generation
  | .storeState i n st _ => n < m.nextSlot i ∧ (m.state i n).generation ≤ st.generation ∧
    ∀ generation g, st = .active generation g →
      m.Made i (some ⟨n, generation⟩) g ∧ m.taskId g ≠ none
  | _ => True

theorem wp_sites {α : Type} {ins : Instr R K E α} (hi : ins.Sited m) (h : Sites m) :
    ins.wp cfg t m fun m' _ _ => Sites m' := by
  obtain ⟨h1, h2, h3, h4⟩ := h
  cases ins
  case newEntry i site k =>
    have old {g : GenId} {j : Ident R K} (hj : m.ident g = some j) : g < m.nextGen := by
      by_contra hn
      rw [h1 g (Nat.le_of_not_lt hn)] at hj
      cases hj
    have made {g : GenId} {j : Ident R K} {x : Site}
        (hj : update m.ident m.nextGen (some i) g = some j)
        (hx : update m.site m.nextGen site g = some x) :
        g = m.nextGen ∧ i = j ∧ site = some x ∨ m.ident g = some j ∧ m.site g = some x := by
      by_cases hg : g = m.nextGen
      · rw [hg, update_self] at hj hx
        exact .inl ⟨hg, Option.some.inj hj, hx⟩
      · rw [update_of_ne hg] at hj hx
        exact .inr ⟨hj, hx⟩
    refine ⟨fun g hg => ?_, fun g j x hj hx => ?_, fun g g' j x hj hx hj' hx' => ?_,
      fun j n generation g hst => ?_⟩
    · have hg' : m.nextGen < g := hg
      exact (update_of_ne hg'.ne' _ _).trans (h1 g hg'.le)
    · rcases made hj hx with ⟨-, rfl, hs⟩ | ⟨hj, hx⟩
      · exact (hi x hs).2
      · exact h2 g j x hj hx
    · rcases made hj hx with ⟨rfl, rfl, hs⟩ | ⟨hj, hx⟩
      · rcases made hj' hx' with ⟨rfl, -, -⟩ | ⟨hj', hx'⟩
        · rfl
        · exact absurd hx' ((hi x hs).1 g' hj')
      · rcases made hj' hx' with ⟨rfl, rfl, hs⟩ | ⟨hj', hx'⟩
        · exact absurd hx ((hi x hs).1 g hj)
        · exact h3 g g' j x hj hx hj' hx'
    · obtain ⟨⟨a1, a2, a3⟩, a4⟩ := h4 j n generation g hst
      refine ⟨⟨Nat.lt_succ_of_lt a1, (update_of_ne a1.ne _ _).trans a2,
        (update_of_ne a1.ne _ _).trans a3⟩, a4⟩
  case storeState i n st k =>
    refine ⟨h1, fun g j x hj hx => ⟨(h2 g j x hj hx).1, ?_⟩, h3, fun j k generation g hst => ?_⟩
    · show x.generation ≤ (update₂ m.state i n st j x.slot).generation
      rw [update₂_apply]
      split_ifs with he
      · obtain ⟨rfl, rfl⟩ := he
        exact (h2 g j x hj hx).2.trans hi.2.1
      · exact (h2 g j x hj hx).2
    · have hst' : update₂ m.state i n st j k = .active generation g := hst
      rw [update₂_apply] at hst'
      split_ifs at hst' with he
      · obtain ⟨rfl, rfl⟩ := he
        exact hi.2.2 generation g hst'
      · exact h4 j k generation g hst'
  case insertSlot i k =>
    refine ⟨h1, fun g j x hj hx => ?_, h3, fun j k generation g hst => ?_⟩
    · have hb := h2 g j x hj hx
      refine ⟨hb.1.trans_le (le_update_succ _), ?_⟩
      show x.generation ≤ (update₂ m.state i (m.nextSlot i) (.starting 1) j x.slot).generation
      rw [update₂_apply]
      split_ifs with he
      · obtain ⟨rfl, he⟩ := he
        exact absurd hb.1 (he ▸ Nat.lt_irrefl _)
      · exact hb.2
    · have hst' : update₂ m.state i (m.nextSlot i) (.starting 1) j k = .active generation g := hst
      rw [update₂_apply] at hst'
      split_ifs at hst' with he
      exact h4 j k generation g hst'
  case insertTask x k =>
    refine ⟨h1, h2, h3, fun j n generation g hst => ?_⟩
    obtain ⟨a1, a2⟩ := h4 j n generation g hst
    exact ⟨a1, update_of_imp (· ≠ none) (Option.some_ne_none _) g a2⟩
  all_goals
    repeat' first
      | exact trivial
      | apply And.intro
      | intro _
      | exact ⟨h1, h2, h3, h4⟩

omit [DecidableEq R] [DecidableEq K] in
theorem sited_of_owns (hb : m.Bounded) (ho : p.Owns m) (hs : p.Sees m) (hk : p.Known m) :
    p.code.Sited m := by
  cases p using Pc.points
  case acquire_create_newEntry q site =>
    rintro x rfl
    obtain ⟨h1, h2, -⟩ := ho.1
    exact ⟨ho.2.1, h1, Nat.le_of_eq (congrArg RegistrySlotState.generation h2).symm⟩
  case acquire_claim_takeover =>
    refine ⟨hb _ _ hs.1, ?_, fun _ _ h => nomatch h⟩
    rw [hs.2]
    exact Nat.le_succ _
  case acquire_settle_storeActive q n generation g =>
    obtain ⟨h1, h2, -⟩ := ho.1
    have hst : m.state q.ident n = .starting generation := h2
    refine ⟨h1, ?_, ?_⟩
    · rw [hst]
      exact Nat.le_refl _
    · rintro _ _ ⟨⟩
      exact hk
  all_goals trivial

/-! ## Slots that are not attached -/

/-- An active slot is attached, or points to a generation that has come to its end. -/
def Memory.Backed (m : Memory R K E) : Prop :=
  ∀ i n generation g, m.state i n = .active generation g →
    m.Attached i n ∨ m.control g = .finished

/-- A slot is activated, and an entry of the map changed, only so. -/
def Instr.Backs {α : Type} (m : Memory R K E) : Instr R K E α → Prop
  | .storeState i n st _ => ∀ generation g, st = .active generation g →
    m.Attached i n ∨ m.control g = .finished
  | .insertSlot i _ | .removeEntry i _ => ∀ n generation g, m.Attached i n →
    m.state i n = .active generation g → m.control g = .finished
  | _ => True

omit [DecidableEq R] [DecidableEq K] in
theorem backs_of_owns (hm : Sites m) (ho : p.Owns m) (hs : p.Sees m) (hk : p.Known m)
    (hj : p.Joined m) : p.code.Backs m := by
  cases p using Pc.points
  case acquire_claim_insert => exact fun n _ _ hatt _ => nomatch hatt.symm.trans hs
  case acquire_claim_takeover => exact fun _ _ h => nomatch h
  case acquire_settle_storeActive q n generation g =>
    rintro _ _ ⟨⟩
    refine ho.1.2.2.imp_right fun ⟨g', hmade, hf⟩ => ?_
    rwa [hm.inj g g' q.ident ⟨n, generation⟩ hk.1.2.1 hk.1.2.2 hmade.2.1 hmade.2.2]
  case acquire_guard_remove_remove q n generation result =>
    intro k generation' g hatt hst
    obtain rfl : k = n := Option.some.inj (hatt.symm.trans hs)
    exact nomatch hst.symm.trans ho.1.2.1
  case supervise_cleanup_remove j g id site y outcome =>
    intro k generation g' hatt hst
    obtain rfl : k = y.slot := Option.some.inj (hatt.symm.trans hs)
    have hgen : (m.state j y.slot).generation = y.generation := ho.2.2.2
    rw [hst] at hgen
    obtain rfl : generation = y.generation := hgen
    obtain ⟨hmade, -, hsite⟩ := hk
    have hact := (hm.active _ _ _ _ hst).1
    rw [hm.inj g' g j y hact.2.1 hact.2.2 hmade.2.1 (hmade.2.2.trans hsite)]
    exact hj.2
  all_goals trivial

theorem wp_backed {α : Type} {ins : Instr R K E α} (hi : ins.Backs m) (h : m.Backed) :
    ins.wp cfg t m fun m' _ _ => ∀ i n generation g, m'.state i n = .active generation g →
      m'.Attached i n ∨ m.control g = .finished := by
  cases ins
  case storeState j k st _ =>
    intro i n generation g hst
    have hst' : update₂ m.state j k st i n = .active generation g := hst
    rw [update₂_apply] at hst'
    split_ifs at hst' with he
    · obtain ⟨rfl, rfl⟩ := he
      exact hi generation g hst'
    · exact h i n generation g hst'
  case insertSlot j _ =>
    intro i n generation g hst
    have hst' : update₂ m.state j (m.nextSlot j) (.starting 1) i n = .active generation g := hst
    rw [update₂_apply] at hst'
    split_ifs at hst'
    by_cases hj : i = j
    · subst hj
      exact .inr ((h i n generation g hst').elim (hi n generation g · hst') id)
    · exact (h i n generation g hst').imp_left fun h => (update_of_ne hj _ _).trans h
  case removeEntry j _ =>
    intro i n generation g hst
    have hst' : m.state i n = .active generation g := hst
    by_cases hj : i = j
    · subst hj
      exact .inr ((h i n generation g hst').elim (hi n generation g · hst') id)
    · exact (h i n generation g hst').imp_left fun h => (update_of_ne hj _ _).trans h
  all_goals
    repeat' first
      | exact trivial
      | exact h
      | apply And.intro
      | intro _

/-! ## What an owner does -/

omit [DecidableEq R] [DecidableEq K] in
/-- A control that is not finished can be written without touching what has come to its end. -/
theorem Memory.Owned.control {ph : Phase} (h : m.Owned i x) (hg : m.control g ≠ .finished) :
    Memory.Owned { m with control := update m.control g ph } i x := by
  refine ⟨h.1, h.2.1, h.2.2.imp_right fun ⟨g', hm, hf⟩ => ⟨g', hm, ?_⟩⟩
  have hne : g' ≠ g := fun e => hg (e ▸ hf)
  exact (update_of_ne hne _ _).trans hf

theorem owns_run (hb : m.Bounded) (hm : Sites m) (ho : p.Owns m) (hs : p.Sees m)
    (hst : p.Starts m) :
    p.code.wp cfg t m fun m' p' c => p'.Owns m' ∧ ForSome (Pc.Owns m') c := by
  obtain ⟨h1, h2, h3, h4⟩ := ho
  cases p using Pc.points
  case' acquire_claim_dropState claim => cases claim
  case acquire_claim_insert q =>
    have hself : update₂ m.state q.ident (m.nextSlot q.ident) (.starting 1) q.ident
        (m.nextSlot q.ident) = .starting 1 := update₂_self _ _ _ _
    refine ⟨⟨⟨?_, hself, .inl (update_self _ _ _)⟩, fun g hi hx => ?_, trivial, trivial⟩, trivial⟩
    · show _ < update m.nextSlot q.ident _ q.ident
      rw [update_self]
      exact Nat.lt_succ_self _
    · exact absurd (hm.bound g _ _ hi hx).1 (Nat.lt_irrefl _)
  case acquire_claim_takeover q n generation g =>
    refine ⟨⟨⟨hb _ _ hs.1, update₂_self _ _ _ _, .inl hs.1⟩, fun g hi hx => ?_, trivial,
      trivial⟩, trivial⟩
    have hle := (hm.bound g _ _ hi hx).2
    have hgen : (m.state q.ident n).generation = generation := by rw [hs.2]; rfl
    have hle' : generation + 1 ≤ (m.state q.ident n).generation := hle
    omega
  case acquire_cloneCleanupKey =>
    exact ⟨⟨⟨h1, trivial, fun _ => h2, h4⟩, trivial⟩, ⟨h1, h2, h3, h4⟩, trivial⟩
  case acquire_create_accepting_some =>
    exact ⟨fun _ => ⟨⟨h1, h2, h3, h4⟩, trivial⟩, fun _ => ⟨⟨h1, trivial, fun _ => h2, h4⟩, trivial⟩⟩
  case acquire_create_build_some =>
    exact ⟨⟨⟨h1, trivial, fun _ => h2, h4⟩, trivial⟩, ⟨⟨h1, trivial, fun _ => h2, h4⟩, trivial⟩,
      ⟨h1, h2, h3, h4⟩, trivial⟩
  case acquire_create_newEntry q site =>
    cases site
    · exact ⟨⟨trivial, trivial, trivial, trivial⟩, trivial⟩
    · refine ⟨⟨⟨h1.1, h1.2.1, h1.2.2.imp_right fun ⟨g, hg, hf⟩ => ⟨g, ⟨?_, ?_, ?_⟩, hf⟩⟩, trivial,
        trivial, trivial⟩, trivial⟩
      · exact Nat.lt_succ_of_lt hg.1
      · exact (update_of_ne hg.1.ne _ _).trans hg.2.1
      · exact (update_of_ne hg.1.ne _ _).trans hg.2.2
  case acquire_create_register_activate q site g =>
    refine ⟨fun hc => ⟨⟨?_, h2, h3, h4⟩, trivial⟩, fun _ => ⟨⟨h1, h2, h3, h4⟩, trivial⟩⟩
    cases site
    · trivial
    · exact Memory.Owned.control h1 (by rw [hc]; decide)
  case acquire_create_cancel_exchange q site g current =>
    refine ⟨fun hc => ⟨⟨?_, h2, h3, h4⟩, trivial⟩, fun _ => ⟨⟨h1, h2, h3, h4⟩, trivial⟩,
      fun _ => ⟨⟨h1, h2, h3, h4⟩, trivial⟩, fun _ => ⟨⟨h1, h2, h3, h4⟩, trivial⟩,
      fun _ => ⟨⟨h1, h2, h3, h4⟩, trivial⟩⟩
    cases site
    · trivial
    · refine Memory.Owned.control h1 ?_
      rw [hc]
      rcases current.2 with h | h <;> rw [h] <;> decide
  case acquire_create_dropSender_some =>
    exact ⟨⟨h1, trivial, fun ha => absurd ha hst, h4⟩, trivial⟩
  case acquire_settle_accepting =>
    exact ⟨fun _ => ⟨⟨h1, h2, h3, h4⟩, trivial⟩,
      fun hn => ⟨⟨h1, trivial, fun ha => absurd ha hn, h4⟩, trivial⟩⟩
  case acquire_guard_remove_entry =>
    refine ⟨⟨⟨trivial, trivial, trivial, trivial⟩, trivial⟩,
      fun _ => ⟨fun _ _ => ?_, fun _ => ⟨⟨trivial, trivial, trivial, trivial⟩, trivial⟩⟩⟩
    dsimp only
    split
    · exact ⟨⟨h1, trivial, h3, trivial⟩, trivial⟩
    · exact ⟨⟨trivial, trivial, trivial, trivial⟩, trivial⟩
  case supervise_cleanup_entry =>
    refine ⟨⟨⟨trivial, trivial, trivial, trivial⟩, trivial⟩,
      fun _ => ⟨fun _ _ => ?_, fun _ => ⟨⟨trivial, trivial, trivial, trivial⟩, trivial⟩⟩⟩
    dsimp only
    split <;> exact ⟨⟨trivial, trivial, trivial, trivial⟩, trivial⟩
  case supervise_cleanup_dropState_true => exact ⟨⟨h1, h2, h3, hs.2 rfl⟩, trivial⟩
  all_goals
    repeat' first
      | exact trivial
      | exact h1
      | exact h2
      | exact h3
      | apply And.intro
      | intro _

/-! ## What a removal leaves -/

/-- Between its last look at the slot and the removal, a cleanup that has locked the entry sees no
other generation number in the slot. -/
def Instr.Numbered {α : Type} (i : Ident R K) (m : Memory R K E) : Instr R K E α → Prop
  | .storeState j n st _ => j = i → st.generation = (m.state i n).generation
  | .insertSlot j _ => j ≠ i
  | _ => True

omit [DecidableEq R] [DecidableEq K] in
theorem numbered_of_owns (ho : p.Owns m) (he : p.shard? ≠ some i) : p.code.Numbered i m := by
  cases p using Pc.points
  case acquire_claim_takeover q _ _ _ => exact fun hi => absurd (congrArg some hi) he
  case acquire_claim_insert q => exact fun hi => he (congrArg some hi)
  case acquire_settle_storeActive q n generation g =>
    rintro rfl
    have hst : m.state q.ident n = .starting generation := ho.1.2.1
    rw [hst]
    rfl
  all_goals trivial

theorem wp_numbered {α : Type} {ins : Instr R K E α} (hi : ins.Numbered i m) (n : ℕ) :
    ins.wp cfg t m fun m' _ _ => (m'.state i n).generation = (m.state i n).generation := by
  cases ins
  case storeState j k st _ =>
    show (update₂ m.state j k st i n).generation = _
    rw [update₂_apply]
    split_ifs with he
    · obtain ⟨rfl, rfl⟩ := he
      exact hi rfl
    · rfl
  case insertSlot j _ =>
    have hrow : update₂ m.state j (m.nextSlot j) (.starting 1) i = m.state i :=
      update₂_row _ (Ne.symm hi) _ _
    exact congrArg RegistrySlotState.generation (congrFun hrow n)
  all_goals
    repeat' first
      | exact trivial
      | exact rfl
      | apply And.intro
      | intro _

/-! ## One owner for each slot -/

/-- The slots of a domain: the sites of its generations, one owner at most for each slot, and what
the owners know. -/
structure Sited (s : State R K E) : Prop where
  sites : Sites s.mem
  backed : s.mem.Backed
  once : ∀ i n, s.total (Pc.sites i n) ≤ 1
  owns : ∀ u, (s.pc u).Owns s.mem

variable {s s' : State R K E} {a : Action R K E} {ok : State R K E → Action R K E → Prop} {n : ℕ}

omit [DecidableEq R] [DecidableEq K] in
theorem cleans_cases (h : p.cleans? = some (i, x)) :
    ∃ g id site outcome, p = .supervise i g id site (.cleanup x outcome .remove) := by
  unfold Pc.cleans? at h
  split at h <;> cases h
  exact ⟨_, _, _, _, rfl⟩

omit [DecidableEq R] [DecidableEq K] in
theorem Pc.Owns.free (h1 : p.owner? = none) (h2 : p.unmade? = none) (h3 : p.givesUp? = none)
    (h4 : p.cleans? = none) : p.Owns m := by
  unfold Pc.Owns
  rw [h1, h2, h3, h4]
  exact ⟨trivial, trivial, trivial, trivial⟩

section

variable (hs : Reach (step cfg) ok State.new s)
include hs

/-- Two threads that have one slot are the same. -/
theorem Sited.eq {u : Tid} (hc : Sited s) (ht : (s.pc t).site? = some (i, n))
    (hu : (s.pc u).site? = some (i, n)) : t = u := by
  have lt {v : Tid} (hv : (s.pc v).site? = some (i, n)) : v < s.size :=
    lt_size_of_ne_idle (fresh_of_reach hs) fun e => by rw [e] at hv; cases hv
  by_contra hne
  have hle := Pool.add_le_total (Pc.sites i n) (lt ht) (lt hu) hne
  have h1 : 0 < (s.pc t).sites i n := sites_pos.mpr ht
  have h2 : 0 < (s.pc u).sites i n := sites_pos.mpr hu
  have := hc.once i n
  omega

/-- A step of another thread leaves a slot to its owner. -/
theorem Sited.apart {u : Tid} (hc : Sited s) (h : step cfg s a = some s') (hu : a.actor ≠ some u)
    (hi : (s.pc u).site? = some (i, n)) : Apart i n s.mem s'.mem := by
  refine apart_step h fun t hat _ hct => hu ?_
  rw [hat, hc.eq hs hct hi]

/-- The slot of an owner stays attached until its generation has come to its end. -/
theorem Sited.attached {u : Tid} (hc : Sited s) (h : step cfg s a = some s')
    (hu : a.actor ≠ some u) (hi : (s.pc u).owner? = some (i, x)) :
    s'.mem.Attached i x.slot ∨ s'.mem.Over i x := by
  have hown := (hc.owns u).owned hi
  suffices h' : s'.mem.Attached i x.slot ∨ s.mem.Over i x from h'.imp_right (·.mono (grows_step h))
  refine mem_step (fun m => m.Attached i x.slot ∨ s.mem.Over i x) h hown.2.2 ?_ ?_ ?_ ?_
  · rintro t p hat rfl -
    refine wp_covers (covers_of_owns hown (fun ht => hu ?_) (hc.owns t) ((sees_of_reach hs).2 t)
      ((known_of_reach hs).2 t) (joined_of_reach hs t)) hown.2.2
    rw [hat, hc.eq hs ht (site_of_owner hi)]
  · rintro c m p - hcall
    cases hcall <;> exact hown.2.2
  · exact fun _ _ _ => hown.2.2
  · rintro m c hh
    cases hh <;> exact hown.2.2

/-- What other threads leave to an owner, and to a cleanup that is about to remove an entry. -/
theorem Sited.stable {u : Tid} (hc : Sited s) (h : step cfg s a = some s')
    (hu : a.actor ≠ some u) : (s.pc u).Owns s'.mem := by
  have hg := grows_step h
  have hl := locked_of_reach hs
  have unused {i : Ident R K} {x : Site} (ho : (s.pc u).owner? = some (i, x))
      (hx : s.mem.Unused i x) : s'.mem.Unused i x :=
    hx.apart (hc.apart hs h hu (site_of_owner ho))
  obtain ⟨h1, h2, h3, h4⟩ := hc.owns u
  refine ⟨?_, ?_, ?_, ?_⟩
  · cases ho : (s.pc u).owner? with
    | none => trivial
    | some o =>
      rw [ho] at h1
      have h1 : s.mem.Owned o.1 o.2 := h1
      have ha := hc.apart hs h hu (site_of_owner ho)
      exact ⟨h1.1.trans_le (hg.nextSlot _), (ha.state h1.1).trans h1.2.1, hc.attached hs h hu ho⟩
  · cases ho : (s.pc u).unmade? with
    | none => trivial
    | some o =>
      rw [ho] at h2
      exact unused (owner_of_unmade ho) h2
  · cases ho : (s.pc u).givesUp? with
    | none => trivial
    | some o =>
      rw [ho] at h3
      have h3 : s.mem.Accepting → s.mem.Unused o.1 o.2 := h3
      exact fun hacc => unused (owner_of_givesUp ho) (h3 (hg.accepting hacc))
  · cases ho : (s.pc u).cleans? with
    | none => trivial
    | some o =>
      rw [ho] at h4
      have h4 : (s.mem.state o.1 o.2.slot).generation = o.2.generation := h4
      show (s'.mem.state o.1 o.2.slot).generation = o.2.generation
      rw [← h4]
      have hshard := (hl u).shard
      obtain ⟨g, id, site, outcome, hp⟩ := cleans_cases ho
      rw [hp] at hshard
      refine mem_step (fun m => (m.state o.1 o.2.slot).generation =
        (s.mem.state o.1 o.2.slot).generation) h rfl ?_ ?_ ?_ ?_
      · rintro t p hat rfl -
        refine wp_numbered (numbered_of_owns (hc.owns t) fun he => hu ?_) _
        have ht := (hl t).shard
        rw [he] at ht
        rw [hat]
        exact congrArg some (Option.some.inj (ht.symm.trans hshard))
      · rintro c m p - hcall
        cases hcall <;> rfl
      · exact fun _ _ _ => rfl
      · rintro m c hh
        cases hh <;> rfl

/-- A thread gets a slot only when nobody has it: one that is allocated is new, and whoever had an
active one would hold its lock or own it. -/
theorem Sited.no_sites (hc : Sited s) (hg : (s.pc t).Takes s.mem i n) :
    s.total (Pc.sites i n) = 0 := by
  obtain ⟨hb, hsees⟩ := sees_of_reach hs
  have hl := locked_of_reach hs
  by_contra hne
  obtain ⟨u, hu, hpos⟩ := Pool.exists_of_total_pos (Nat.pos_of_ne_zero hne)
  have hsite := sites_pos.mp hpos
  have hseest := hsees t
  have hlt := (hl t).slotLock
  unfold Pc.Takes at hg
  split at hg
  case h_1 q hp =>
    obtain ⟨rfl, rfl⟩ := hg
    rcases site_cases hsite with ⟨x, hx, hn⟩ | ⟨q', generation, g, hpu, hi⟩
    · exact absurd ((hc.owns u).owned hx).1 (hn ▸ Nat.lt_irrefl _)
    · have := hsees u
      rw [hpu] at this
      exact absurd (hb _ _ this.1) (hi ▸ Nat.lt_irrefl _)
  case h_2 q k generation g hp =>
    obtain ⟨rfl, rfl⟩ := hg
    rw [hp] at hseest hlt
    rcases site_cases hsite with ⟨x, hx, hn⟩ | ⟨q', generation', g', hpu, hi⟩
    · have := ((hc.owns u).owned hx).2.1
      rw [hn, hseest.2] at this
      cases this
    · have hlu := (hl u).slotLock
      rw [hpu] at hlu
      have hlu : s.mem.slotLock q'.ident n = some u := hlu
      rw [hi] at hlu
      obtain rfl : t = u := Option.some.inj (hlt.symm.trans hlu)
      rw [hp] at hpu
      cases hpu
  case h_3 => exact hg

theorem Sited.step (hc : Sited s) (h : step cfg s a = some s') : Sited s' := by
  have hb := (sees_of_reach hs).1
  have hsees := (sees_of_reach hs).2
  have hk := (known_of_reach hs).2
  refine ⟨?_, ?_, fun i n => ?_, ?_⟩
  · refine mem_step Sites h hc.sites ?_ ?_ ?_ ?_
    · rintro t p - rfl -
      exact wp_sites (sited_of_owns hb (hc.owns t) (hsees t) (hk t)) hc.sites
    · rintro c m p - hcall
      cases hcall <;> exact ⟨hc.sites.fresh, hc.sites.bound, hc.sites.inj, hc.sites.active⟩
    · exact fun _ _ _ => ⟨hc.sites.fresh, hc.sites.bound, hc.sites.inj, hc.sites.active⟩
    · rintro m c hh
      cases hh <;> exact ⟨hc.sites.fresh, hc.sites.bound, hc.sites.inj, hc.sites.active⟩
  · suffices h' : ∀ i n generation g, s'.mem.state i n = .active generation g →
        s'.mem.Attached i n ∨ s.mem.control g = .finished from
      fun i n generation g hst => (h' i n generation g hst).imp_right (grows_step h).finished
    refine mem_step (fun m => ∀ i n generation g, m.state i n = .active generation g →
      m.Attached i n ∨ s.mem.control g = .finished) h hc.backed ?_ ?_ ?_ ?_
    · rintro t p - rfl -
      exact wp_backed (backs_of_owns hc.sites (hc.owns t) (hsees t) (hk t) (joined_of_reach hs t))
        hc.backed
    · rintro c m p - hcall
      cases hcall <;> exact hc.backed
    · exact fun _ _ _ => hc.backed
    · rintro m c hh
      cases hh <;> exact hc.backed
  · refine total_step (Pc.sites i n) (fun _ n => n ≤ 1) h ?_ ?_ ?_ ?_ ?_
    · rintro t p k - rfl hr hk
      have := hc.once i n
      refine (wp_slots i n).mono fun m p' c hcl => ?_
      rcases hcl with hle | ⟨hg, hle, rfl⟩
      · omega
      · have hzero := hc.no_sites hs hg
        have hnone : ((none : Option (Pc R K E)).map (Pc.sites i n)).getD 0 = 0 := rfl
        omega
    · rintro t p p' k hj - hk
      have := hc.once i n
      have hle : p'.sites i n ≤ p.sites i n := by cases hj <;> exact Nat.le_refl _
      omega
    · rintro c m p - hcall
      have := hc.once i n
      have h0 : p.sites i n = 0 := by cases hcall <;> rfl
      omega
    · exact fun _ _ _ => hc.once i n
    · rintro m c hh
      have := hc.once i n
      have h0 : (c.map (Pc.sites i n)).getD 0 = 0 := by cases hh <;> rfl
      omega
  · refine forall_pc_step (fun m _ p => p.Owns m) h hc.owns (fun u hu => hc.stable hs h hu)
      ?_ ?_ ?_ ?_
    · rintro t p - rfl - hp
      exact owns_run hb hc.sites hp (hsees t) (starts_of_reach hs t)
    · rintro t p p' hj - - hp
      cases hj
      case build => exact ⟨hp.1, trivial, fun _ => hp.2.1, trivial⟩
      all_goals exact .free rfl rfl rfl rfl
    · rintro c m p rfl hcall
      cases hcall <;> exact .free rfl rfl rfl rfl
    · rintro m c hh
      cases hh
      exact .free rfl rfl rfl rfl

end

/-- **Slots and their owners.** -/
theorem sited_of_reach (hs : Reach (Resourcery.step cfg) ok State.new s) : Sited s := by
  refine hs.invariant_of_reach Sited ⟨⟨fun _ _ => rfl, ?_, ?_, ?_⟩, ?_, fun _ _ => Nat.zero_le _,
    fun _ => ?_⟩ fun s a s' hs hc _ h => hc.step hs h
  · exact fun _ _ _ h => nomatch h
  · exact fun _ _ _ _ h => nomatch h
  · exact fun _ _ _ _ h => nomatch h
  · exact fun _ _ _ _ h => nomatch h
  · exact ⟨trivial, trivial, trivial, trivial⟩

end Resourcery
