import Resourcery.Proof.Exclusivity

/-!
# The state of an identity

`Memory.lookup` is what one look at a canonical identity finds. Slots, entries, controls and the
domain's phase change it only in a few ways (`Turns`): an identity is claimed while absent, its
construction succeeds or fails, and a generation that is no longer found cannot be acquired.
-/

namespace Resourcery

open Interleaving Function Transition ResourceContext Relation

variable {R K E : Type}

/-! ## What a lookup finds -/

instance (m : Memory R K E) (g : GenId) : Decidable (m.Acquirable g) :=
  inferInstanceAs (Decidable ((0 < m.strong g ∧ m.control g = .active) ∧ m.Accepting))

/-- What one look at the identity `i` finds. -/
def Memory.lookup (m : Memory R K E) (i : Ident R K) : ResourceStatus :=
  match m.entries i with
  | none => .absent
  | some n =>
    match m.state i n with
    | .starting _ => .starting
    | .active _ g => if m.Acquirable g then .active g else .absent

/-- `g` is found no more: it is dead, or the domain has stopped accepting. -/
def Memory.Retired (m : Memory R K E) (g : GenId) : Prop :=
  g < m.nextGen ∧ (m.Dead g ∨ ¬ m.Accepting)

variable {cfg : Config R K} {t : Tid} {m m' : Memory R K E} {p : Pc R K E} {g : GenId}
  {i : Ident R K} {n generation : ℕ}

theorem lookup_of_none (h : m.entries i = none) : m.lookup i = .absent := by
  unfold Memory.lookup
  rw [h]

theorem lookup_of_starting (ha : m.Attached i n) (hst : m.state i n = .starting generation) :
    m.lookup i = .starting := by
  unfold Memory.lookup
  rw [ha]
  dsimp only
  rw [hst]

theorem lookup_of_active (ha : m.Attached i n) (hst : m.state i n = .active generation g) :
    m.lookup i = if m.Acquirable g then .active g else .absent := by
  unfold Memory.lookup
  rw [ha]
  dsimp only
  rw [hst]

theorem lookup_of_refused (ha : m.Attached i n) (hst : m.state i n = .active generation g)
    (hg : ¬ m.Acquirable g) : m.lookup i = .absent := by
  rw [lookup_of_active ha hst, if_neg hg]

theorem lookup_of_acquirable (ha : m.Attached i n) (hst : m.state i n = .active generation g)
    (hg : m.Acquirable g) : m.lookup i = .active g := by
  rw [lookup_of_active ha hst, if_pos hg]

theorem lookup_eq_active (h : m.lookup i = .active g) :
    ∃ n generation, m.Attached i n ∧ m.state i n = .active generation g ∧ m.Acquirable g := by
  unfold Memory.lookup at h
  split at h
  · cases h
  · rename_i n hn
    split at h
    · cases h
    · rename_i generation g' hst
      split_ifs at h with hg
      cases h
      exact ⟨n, generation, hn, hst, hg⟩

theorem Memory.Dead.not_acquirable (h : m.Dead g) : ¬ m.Acquirable g :=
  fun hg => hg.1.not_dead h

theorem Memory.Retired.not_acquirable (h : m.Retired g) : ¬ m.Acquirable g :=
  fun hg => h.2.elim (fun hd => hd.not_acquirable hg) fun ha => ha hg.2

/-! ## One step -/

/-- What can become of a lookup when its slot is written to. -/
inductive Turns : ResourceStatus → ResourceStatus → Prop
  | refl (st : ResourceStatus) : Turns st st
  | claim : Turns .absent .starting
  | fail : Turns .starting .absent
  | activate (x : GenId) : Turns .starting (.active x)

/-- An instruction claims an identity that is absent, removes the entry of one that is not active,
and activates one that is starting. -/
def Instr.Evolves {α : Type} (m : Memory R K E) : Instr R K E α → Prop
  | .insertSlot i _ => m.entries i = none
  | .removeEntry i _ => ∀ g, m.lookup i ≠ .active g
  | .storeState i n (.starting _) _ => m.Attached i n ∧ m.lookup i = .absent
  | .storeState i n (.active ..) _ => m.Attached i n → m.lookup i = .starting
  | _ => True

theorem evolves_of_owns (hm : Sites m) (ho : p.Owns m) (hs : p.Sees m) (hk : p.Known m)
    (hj : p.Joined m) (hr : p.Refuses m) : p.code.Evolves m := by
  cases p using Pc.points
  case acquire_claim_takeover q n generation g =>
    exact ⟨hs.1, lookup_of_refused hs.1 hs.2 hr.not_acquirable⟩
  case acquire_claim_insert q => exact hs
  case acquire_settle_storeActive q n generation g =>
    exact fun ha => lookup_of_starting ha ho.1.2.1
  case acquire_guard_remove_remove q n generation result =>
    intro g hg
    have hst := lookup_of_starting hs ho.1.2.1
    exact ResourceStatus.noConfusion (hst.symm.trans hg)
  case supervise_cleanup_remove j g id site y outcome =>
    intro g' hg
    obtain ⟨n, generation, ha, hst, hacq⟩ := lookup_eq_active hg
    obtain rfl : n = y.slot := Option.some.inj (ha.symm.trans hs)
    have hgen : (m.state j y.slot).generation = y.generation := ho.2.2.2
    rw [hst] at hgen
    obtain rfl : generation = y.generation := hgen
    obtain ⟨hmade, -, hsite⟩ := hk
    rw [show site = some y from hsite] at hmade
    have hact := (hm.active _ _ _ _ hst).1
    obtain rfl := hm.inj g g' j y hmade.2.1 hmade.2.2 hact.2.1 hact.2.2
    exact Phase.noConfusion (hj.2.symm.trans hacq.1.2)
  all_goals trivial

/-- The entry of `i` and the state of its slot are as they were. -/
def Memory.SameSlot (m : Memory R K E) (i : Ident R K) (m' : Memory R K E) : Prop :=
  m'.entries i = m.entries i ∧ ∀ n, m.Attached i n → m'.state i n = m.state i n

theorem Memory.SameSlot.of_eq (h1 : m'.entries = m.entries) (h2 : m'.state = m.state) :
    m.SameSlot i m' :=
  ⟨by rw [h1], fun n _ => by rw [h2]⟩

variable [DecidableEq R] [DecidableEq K]

theorem wp_lookup {α : Type} {ins : Instr R K E α} (hi : ins.Evolves m) (i : Ident R K) :
    ins.wp cfg t m fun m' _ _ => m.SameSlot i m' ∨ Turns (m.lookup i) (m'.lookup i) := by
  cases ins
  case insertSlot j k =>
    by_cases hj : i = j
    · subst hj
      have hentry : Memory.Attached { m with
          entries := update m.entries i (some (m.nextSlot i))
          nextSlot := update m.nextSlot i (m.nextSlot i + 1)
          state := update₂ m.state i (m.nextSlot i) (.starting 1) } i (m.nextSlot i) :=
        update_self _ _ _
      refine .inr ?_
      rw [lookup_of_none hi, lookup_of_starting hentry (update₂_self _ _ _ _)]
      exact .claim
    · refine .inl ⟨update_of_ne hj _ _, fun n _ => ?_⟩
      exact if_neg fun h => hj h.1
  case removeEntry j k =>
    by_cases hj : i = j
    · subst hj
      have hself : (update m.entries i none) i = none := update_self _ _ _
      refine .inr ?_
      rw [lookup_of_none (m := { m with entries := update m.entries i none }) hself]
      cases hst : m.lookup i with
      | absent => exact .refl _
      | starting => exact .fail
      | active g => exact absurd hst (hi g)
    · exact .inl ⟨update_of_ne hj _ _, fun n _ => rfl⟩
  case storeState j n st k =>
    by_cases hj : i = j ∧ m.Attached i n
    · obtain ⟨rfl, ha⟩ := hj
      have ha' : Memory.Attached { m with state := update₂ m.state i n st } i n := ha
      have hself : update₂ m.state i n st i n = st := update₂_self _ _ _ _
      refine .inr ?_
      cases st with
      | starting generation =>
        rw [hi.2, lookup_of_starting ha' hself]
        exact .claim
      | active generation g =>
        rw [hi ha, lookup_of_active ha' hself]
        split_ifs
        · exact .activate g
        · exact .fail
    · refine .inl ⟨rfl, fun n' hn' => if_neg ?_⟩
      rintro ⟨rfl, rfl⟩
      exact hj ⟨rfl, hn'⟩
  all_goals
    repeat' first
      | exact trivial
      | apply And.intro
      | intro _
      | exact .inl (.of_eq rfl rfl)

variable {s : State R K E} {ok : State R K E → Action R K E → Prop}

theorem evolves_of_reach (hs : Reach (step cfg) ok State.new s) (t : Tid) :
    (s.pc t).code.Evolves s.mem :=
  have hsite := sited_of_reach hs
  evolves_of_owns hsite.sites (hsite.owns t) ((sees_of_reach hs).2 t) ((known_of_reach hs).2 t)
    (joined_of_reach hs t) (refuses_of_reach hs t)

/-- A generation is created. -/
def foundRun : List (Action Unit Unit Unit) :=
  .call (.acquire ⟨.getOrSpawn, ⟨(), ()⟩⟩) :: List.replicate 26 (.run 0 .go)

end Resourcery
