import Resourcery.Logic.Acquisitions
import Resourcery.Logic.Threads
import Resourcery.Proof.Exclusivity
import Resourcery.Proof.Index

/-!
# `all`

What an acquisition returns has been put into the live index, and stays there until its control is
finished (`Memory.Offered`). So the iteration over the index, which is not atomic, followed by an
upgrade of each of its items misses no generation that is active all along and invents none.
-/

namespace Resourcery

open Interleaving Function Transition ResourceContext

variable {R K E : Type}

/-! ## What acquisitions return -/

/-- `g`, of type `r`, has been put into the live index, and is in it unless it is finished. -/
def Memory.Offered (m : Memory R K E) (r : R) (g : GenId) : Prop :=
  ∃ id, m.taskId g = some id ∧ (∃ i, m.ident g = some i ∧ i.ty = r) ∧
    ((id, g) ∈ m.live r ∨ m.control g = .finished)

/-- Active slots point to generations that have been put into the live index. -/
def Memory.Offers (m : Memory R K E) : Prop :=
  ∀ i n generation g, m.state i n = .active generation g → m.Offered i.ty g

/-- The generation a claim has found. -/
def Registry.ClaimPc.finds? : ClaimPc → Option GenId
  | .upgrade _ _ g | .tryAcquire _ _ g _ | .dropState _ (.active g) | .dropEntry (.active g) =>
    some g
  | _ => none

/-- The generation in a result. -/
def Acquired.found? : Acquired → Option GenId
  | .ok g => some g
  | _ => none

/-- The generation an acquisition has found or created. -/
def ResourceContext.AcquirePc.finds? : AcquirePc → Option GenId
  | .claim p => p.finds?
  | .settle _ _ g _ | .start g | .deliver g => some g
  | .guard _ _ result _ | .returned result => result.found?
  | _ => none

/-- An instruction takes only finished generations out of the live index, and makes a slot point to
one that is in it. -/
def Instr.Offers {α : Type} (m : Memory R K E) : Instr R K E α → Prop
  | .insertLive _ id g _ => m.taskId g = some id
  | .removeLive _ id _ => ∀ g, m.taskId g = some id → m.control g = .finished
  | .storeState i _ st _ => ∀ generation g, st = .active generation g → m.Offered i.ty g
  | _ => True

variable {cfg : Config R K} {t u : Tid} {m m' : Memory R K E} {p : Pc R K E} {g : GenId} {r : R}
  {q : Request R K}

theorem offers_of_found (hk : p.Known m) (hj : p.Joined m) (htab : Tables m)
    (hp : p.OfAcquire fun q p => ForSome (m.Offered q.ident.ty) p.finds?) : p.code.Offers m := by
  cases p using Pc.points
  case acquire_create_insertLive => exact hk.2
  case acquire_claim_takeover => exact fun _ _ h => nomatch h
  case acquire_settle_storeActive =>
    intro generation g h
    cases h
    exact hp
  case supervise_removeLive =>
    intro g' hg'
    rw [htab.inj _ _ _ hg' hk.2.1]
    exact hj.2
  all_goals trivial

section

variable [DecidableEq R] [DecidableEq K]

theorem wp_offered {α : Type} {ins : Instr R K E α} (hi : ins.Offers m) (ht : ins.Touching m)
    (htab : Tables m) (h : m.Offered r g) : ins.wp cfg t m fun m' _ _ => m'.Offered r g := by
  obtain ⟨id, hid, ⟨i, hident, hty⟩, hl⟩ := h
  have hlt : g < m.nextGen := htab.lt_nextGen (by rw [hid]; exact nofun)
  cases ins
  case insertTask x k =>
    have hne : g ≠ x := by
      rintro rfl
      exact nomatch ht.2.symm.trans hid
    exact ⟨id, (update_of_ne hne _ _).trans hid, ⟨i, hident, hty⟩, hl⟩
  case newEntry j site k =>
    exact ⟨id, hid, ⟨i, (update_of_ne (Nat.ne_of_lt hlt) _ _).trans hident, hty⟩, hl⟩
  case insertLive r' id' x k =>
    refine ⟨id, hid, ⟨i, hident, hty⟩, hl.imp_left fun hl => ?_⟩
    show (id, g) ∈ update m.live r' _ r
    by_cases hr : r = r'
    · subst hr
      rw [update_self]
      by_cases he : id' = id
      · subst he
        rw [htab.inj _ _ _ hid hi]
        exact List.mem_cons_self
      · exact List.mem_cons_of_mem _ (List.mem_filter.mpr ⟨hl, by simpa using Ne.symm he⟩)
    · rw [update_of_ne hr]
      exact hl
  case removeLive r' id' k =>
    by_cases he : id = id'
    · exact ⟨id, hid, ⟨i, hident, hty⟩, .inr (hi g (he ▸ hid))⟩
    · refine ⟨id, hid, ⟨i, hident, hty⟩, hl.imp_left fun hl => ?_⟩
      show (id, g) ∈ update m.live r' _ r
      by_cases hr : r = r'
      · subst hr
        rw [update_self]
        exact List.mem_filter.mpr ⟨hl, by simpa using he⟩
      · rw [update_of_ne hr]
        exact hl
  case exchangeActive x k =>
    refine ⟨fun hs => ⟨id, hid, ⟨i, hident, hty⟩, hl.imp_right fun hl => ?_⟩,
      fun _ => ⟨id, hid, ⟨i, hident, hty⟩, hl⟩⟩
    have hne : g ≠ x := by
      rintro rfl
      exact nomatch hs.symm.trans hl
    exact (update_of_ne hne _ _).trans hl
  case exchangeCancelling x current k =>
    have hstay : m.Offered r g := ⟨id, hid, ⟨i, hident, hty⟩, hl⟩
    refine ⟨fun hs => ⟨id, hid, ⟨i, hident, hty⟩, hl.imp_right fun hl => ?_⟩,
      fun _ => hstay, fun _ => hstay, fun _ => hstay, fun _ => hstay⟩
    have hne : g ≠ x := by
      rintro rfl
      have hc := current.2
      rw [← hs, hl] at hc
      rcases hc with hc | hc <;> cases hc
    exact (update_of_ne hne _ _).trans hl
  case storeFinished x k =>
    refine ⟨id, hid, ⟨i, hident, hty⟩, hl.imp_right fun hl => ?_⟩
    show update m.control x .finished g = .finished
    by_cases hx : g = x
    · rw [hx, update_self]
    · rw [update_of_ne hx, hl]
  all_goals
    repeat' first
      | exact trivial
      | exact ⟨id, hid, ⟨i, hident, hty⟩, hl⟩
      | apply And.intro
      | intro _

theorem wp_offers {α : Type} {ins : Instr R K E α} (hi : ins.Offers m) (h : m.Offers) :
    ins.wp cfg t m fun m' _ _ =>
      ∀ i n generation g, m'.state i n = .active generation g → m.Offered i.ty g := by
  cases ins
  case storeState j k st c =>
    intro i n generation g hst
    change (if i = j ∧ n = k then st else m.state i n) = _ at hst
    split at hst
    · rename_i he
      rw [he.1]
      exact hi generation g hst
    · exact h i n generation g hst
  case insertSlot j k =>
    intro i n generation g hst
    change (if i = j ∧ n = m.nextSlot j then _ else m.state i n) = _ at hst
    split at hst
    · cases hst
    · exact h i n generation g hst
  all_goals
    repeat' first
      | exact trivial
      | exact h
      | apply And.intro
      | intro _

theorem found_run {p : AcquirePc} (hm : m.Offers) (hk : (Pc.acquire q p : Pc R K E).Known m)
    (hx : (Pc.acquire q p : Pc R K E).Indexed m) (hp : ForSome (m.Offered q.ident.ty) p.finds?) :
    (Pc.acquire q p : Pc R K E).code.wp cfg t m fun m' p' _ =>
      p'.OfAcquire fun q p => ForSome (m'.Offered q.ident.ty) p.finds? := by
  cases q, p using AcquirePc.points
  case' claim_dropState claim => cases claim
  case create_spawnSupervisor_none g id | create_spawnSupervisor_some g id _ =>
    exact ⟨id, hk.2, ⟨q.ident, hk.1.2.1, rfl⟩, .inl hx⟩
  case claim_lockSlot n => exact fun _ => ⟨fun _ _ => trivial, fun _ _ hst => hm _ _ _ _ hst⟩
  case guard_remove_entry =>
    refine ⟨trivial, fun _ => ⟨fun _ _ => ?_, fun _ => hp⟩⟩
    dsimp only
    split <;> exact hp
  all_goals
    repeat' first
      | exact trivial
      | exact hp
      | apply And.intro
      | intro _

variable {s s' : State R K E} {a : Action R K E} {ok : State R K E → Action R K E → Prop}

/-- The generations that active slots and acquisitions offer have been put into the live index. -/
def Found (s : State R K E) : Prop :=
  s.mem.Offers ∧ ∀ u, (s.pc u).OfAcquire fun q p => ForSome (s.mem.Offered q.ident.ty) p.finds?

theorem offers_step (hs : Reach (step cfg) ok State.new s) (hf : Found s) (t : Tid) :
    (s.pc t).code.Offers s.mem :=
  offers_of_found ((known_of_reach hs).2 t) (joined_of_reach hs t) (known_of_reach hs).1 (hf.2 t)

/-- A generation stays in the live index until it is finished. -/
theorem Found.offered (hf : Found s) (hs : Reach (step cfg) ok State.new s)
    (h : step cfg s a = some s') (hg : s.mem.Offered r g) : s'.mem.Offered r g := by
  obtain ⟨htab, hk⟩ := known_of_reach hs
  refine mem_step (fun m => m.Offered r g) h hg ?_ ?_ (fun _ _ _ => hg) ?_
  · rintro t p - rfl -
    exact wp_offered (offers_step hs hf t) (touching_of_known htab (hk t)) htab hg
  · rintro c m p - hc
    cases hc <;> exact hg
  · rintro m c hh
    cases hh <;> exact hg

theorem Found.step (hf : Found s) (hs : Reach (step cfg) ok State.new s)
    (h : Resourcery.step cfg s a = some s') : Found s' := by
  have hkeep {r : R} {g : GenId} : s.mem.Offered r g → s'.mem.Offered r g := hf.offered hs h
  constructor
  · have hst : ∀ i n generation g, s'.mem.state i n = .active generation g →
        s.mem.Offered i.ty g := by
      refine mem_step (fun m => ∀ i n generation g, m.state i n = .active generation g →
        s.mem.Offered i.ty g) h hf.1 ?_ ?_ (fun _ _ _ => hf.1) ?_
      · rintro t p - rfl -
        exact wp_offers (offers_step hs hf t) hf.1
      · rintro c m p - hc
        cases hc <;> exact hf.1
      · rintro m c hh
        cases hh <;> exact hf.1
    exact fun i n generation g he => hkeep (hst i n generation g he)
  · refine forall_acquire_step (fun m _ q p => ForSome (m.Offered q.ident.ty) p.finds?) h hf.2
      (fun u q p _ hp => ?_) ?_ ?_ ?_
    · have hu := hf.2 u
      rw [hp] at hu
      change ForSome _ p.finds? at hu
      cases hg : p.finds? with
      | none => trivial
      | some g =>
        rw [hg] at hu
        exact hkeep hu
    · rintro t q p - hp hA
      have hk := (known_of_reach hs).2 t
      have hx := indexedAt_of_reach hs t
      rw [hp] at hk hx
      exact found_run hf.1 hk hx hA
    · rintro t q p p' - - hj -
      cases hj <;> trivial
    · exact fun _ _ => ⟨trivial, trivial⟩

/-- **What acquisitions return** has been put into the live index. -/
theorem found_of_reach (hs : Reach (Resourcery.step cfg) ok State.new s) : Found s :=
  hs.invariant_of_reach Found ⟨fun _ _ _ _ => nofun, fun _ => trivial⟩
    fun _ _ _ hs hf _ h => hf.step hs h

end

/-! ## What `all` has found -/

/-- What `all` has collected and found: nothing twice, registered generations only, and of each it
has found that `D`. The one it tries to acquire has been upgraded, `U`, and at its last load it has
also seen that the domain accepts, `W`. -/
def ResourceContext.AllPc.Sound (m : Memory R K E) (U W D : GenId → Prop) : AllPc → Prop
  | .iter => True
  | .collect _ snapshot =>
    (snapshot.map Prod.fst).Nodup ∧ ∀ e ∈ snapshot, m.taskId e.2 = some e.1
  | .filter todo found | .dropEntry _ todo found =>
    (found ++ todo).Nodup ∧ m.Registered todo ∧ ∀ x ∈ found, D x
  | .tryAcquire g todo found p =>
    (found ++ g :: todo).Nodup ∧ m.Registered todo ∧ (∀ x ∈ found, D x) ∧ U g ∧
      (p = .activeAgain → W g)
  | .returned found => found.Nodup ∧ ∀ x ∈ found, D x

/-- `all` has not missed `g`, whose id is `id`. -/
def ResourceContext.AllPc.Has (g : GenId) (id : ℕ) : AllPc → Prop
  | .iter => True
  | .collect keys _ => id ∈ keys
  | .filter todo found | .dropEntry _ todo found => g ∈ found ∨ g ∈ todo
  | .tryAcquire x todo found _ => x = g ∨ g ∈ found ∨ g ∈ todo
  | .returned found => g ∈ found

/-- `P` of a call of `all` for `r`. -/
def Pc.OfAll (r : R) (P : AllPc → Prop) (p : Pc R K E) : Prop := ∀ q, p = .all r q → P q

/-- Thread `u` is in a call of `all` for `r`. -/
def Collecting (r : R) (u : Tid) (s : State R K E) : Prop :=
  ∃ p, s.pc u = .all r p ∧ ∀ found, p ≠ .returned found

theorem ResourceContext.AllPc.Sound.mono {U W D U' W' D' : GenId → Prop} {p : AllPc}
    (h : p.Sound m U W D) (hm : ∀ g id, m.taskId g = some id → m'.taskId g = some id)
    (hU : ∀ g, U g → U' g) (hW : ∀ g, W g → W' g) (hD : ∀ g, D g → D' g) : p.Sound m' U' W' D' := by
  have reg {gs : List GenId} (h : m.Registered gs) : m'.Registered gs := fun x hx => by
    obtain ⟨id, hid⟩ := Option.ne_none_iff_exists'.mp (h x hx)
    rw [hm x id hid]
    exact nofun
  cases p
  case iter => trivial
  case collect => exact ⟨h.1, fun e he => hm _ _ (h.2 e he)⟩
  case filter | dropEntry => exact ⟨h.1, reg h.2.1, fun x hx => hD x (h.2.2 x hx)⟩
  case tryAcquire =>
    exact ⟨h.1, reg h.2.1, fun x hx => hD x (h.2.2.1 x hx), hU _ h.2.2.2.1,
      fun e => hW _ (h.2.2.2.2 e)⟩
  case returned => exact ⟨h.1, fun x hx => hD x (h.2 x hx)⟩

/-- Generations with different ids are different. -/
theorem nodup_snapshot {es : List (ℕ × GenId)} (hn : (es.map Prod.fst).Nodup)
    (hm : ∀ e ∈ es, m.taskId e.2 = some e.1) : (es.map Prod.snd).Nodup := by
  unfold List.Nodup at *
  rw [List.pairwise_map] at *
  refine hn.imp_of_mem fun {e e'} he he' hne hx => hne ?_
  have h := hm e he
  rw [hx, hm e' he'] at h
  exact (Option.some.inj h).symm

section

variable [DecidableEq R] [DecidableEq K]

theorem all_run {U W D : GenId → Prop} {p : AllPc} (hm : m.Indexed)
    (hU : ∀ g, m.taskId g ≠ none → 0 < m.strong g → U g) (hW : ∀ g, U g → m.Accepting → W g)
    (hD : ∀ g, W g → m.control g = .active → D g) (hp : p.Sound m U W D) :
    (Pc.all r p : Pc R K E).code.wp cfg t m fun m' p' _ =>
      p'.OfAll r fun q => q.Sound m' U W D := by
  have at_ {m' : Memory R K E} {q : AllPc} (h : q.Sound m' U W D) :
      (Pc.all r q : Pc R K E).OfAll r fun q => q.Sound m' U W D := by
    intro q' he
    cases he
    exact h
  cases p
  case iter => exact at_ ⟨List.nodup_nil, fun e he => absurd he List.not_mem_nil⟩
  case collect keys snapshot =>
    refine ⟨fun e he hn => at_ ⟨?_, ?_⟩, fun _ => at_ ⟨?_, ?_, ?_⟩⟩
    · rw [List.map_append]
      refine List.nodup_append.mpr ⟨hp.1, List.nodup_singleton _, fun a ha b hb hab => hn ?_⟩
      rw [← List.mem_singleton.mp hb, ← hab]
      exact ha
    · intro x hx
      rcases List.mem_append.mp hx with hx | hx
      · exact hp.2 x hx
      · rw [List.mem_singleton.mp hx]
        exact (hm r e he).1
    · exact nodup_snapshot hp.1 hp.2
    · intro x hx
      obtain ⟨e, he, rfl⟩ := List.mem_map.mp hx
      rw [hp.2 e he]
      exact nofun
    · exact fun x hx => absurd hx List.not_mem_nil
  case filter todo found =>
    cases todo with
    | nil => exact at_ ⟨by simpa using hp.1, hp.2.2⟩
    | cons g todo =>
      obtain ⟨hn, hr, hD⟩ := hp
      refine ⟨fun h0 => at_ ⟨hn, fun x hx => hr x (List.mem_cons_of_mem _ hx), hD,
        hU g (hr g List.mem_cons_self) h0, nofun⟩, fun _ => at_ ⟨?_, ?_, hD⟩⟩
      · exact (List.nodup_middle.mp hn).of_cons
      · exact fun x hx => hr x (List.mem_cons_of_mem _ hx)
  case tryAcquire g todo found p =>
    obtain ⟨hn, hr, hd, hu, hw⟩ := hp
    have rest : (Pc.all r (.dropEntry g todo found) : Pc R K E).OfAll r fun q => q.Sound m U W D :=
      at_ ⟨(List.nodup_middle.mp hn).of_cons, hr, hd⟩
    cases p
    case accepting => exact ⟨fun _ => at_ ⟨hn, hr, hd, hu, nofun⟩, fun _ => rest⟩
    case active =>
      exact ⟨fun _ => rest, fun _ => at_ ⟨hn, hr, hd, hu, nofun⟩, fun _ => rest, fun _ => rest⟩
    case acceptingAgain =>
      exact ⟨fun ha => at_ ⟨hn, hr, hd, hu, fun _ => hW g hu ha⟩, fun _ => rest⟩
    case activeAgain =>
      refine ⟨fun _ => rest, fun ha => at_ ⟨?_, hr, fun x hx => ?_⟩, fun _ => rest, fun _ => rest⟩
      · rw [List.append_assoc]
        exact hn
      · rcases List.mem_append.mp hx with hx | hx
        · exact hd x hx
        · rw [List.mem_singleton.mp hx]
          exact hD g (hw rfl) ha
  case dropEntry => exact ⟨fun _ => at_ hp, fun _ => at_ hp⟩
  case returned => trivial

theorem all_has {id : ℕ} {p : AllPc} {U W D : GenId → Prop} (hp : p.Sound m U W D)
    (htab : Tables m) (hid : m.taskId g = some id) (hl : (id, g) ∈ m.live r) (hg : m.Acquirable g)
    (hh : p.Has g id) :
    (Pc.all r p : Pc R K E).code.wp cfg t m fun _ p' _ => p'.OfAll r fun q => q.Has g id := by
  have at_ {q : AllPc} (h : q.Has g id) :
      (Pc.all r q : Pc R K E).OfAll r fun q => q.Has g id := by
    intro q' he
    cases he
    exact h
  cases p
  case iter => exact at_ (List.mem_map.mpr ⟨_, hl, rfl⟩)
  case collect keys snapshot =>
    refine ⟨fun _ _ _ => at_ hh, fun hall => at_ (.inr ?_)⟩
    obtain ⟨e, he, hid'⟩ := List.mem_map.mp (hall id hh (List.mem_map.mpr ⟨_, hl, rfl⟩))
    refine List.mem_map.mpr ⟨e, he, htab.inj _ _ id ?_ hid⟩
    rw [← hid']
    exact hp.2 e he
  case filter todo found =>
    cases todo with
    | nil => exact at_ (hh.resolve_right List.not_mem_nil)
    | cons x todo =>
      have hh : x = g ∨ g ∈ found ∨ g ∈ todo := by
        rcases hh with h | h
        · exact .inr (.inl h)
        · rcases List.mem_cons.mp h with h | h
          · exact .inl h.symm
          · exact .inr (.inr h)
      refine ⟨fun _ => at_ hh, fun h0 => at_ (hh.resolve_left fun e => ?_)⟩
      exact absurd hg.1.1 (by rw [← e, h0]; exact Nat.lt_irrefl 0)
  case tryAcquire x todo found p =>
    -- the generation itself is not refused
    have rest (hne : x ≠ g) :
        (Pc.all r (.dropEntry x todo found) : Pc R K E).OfAll r fun q => q.Has g id :=
      at_ (hh.resolve_left hne)
    have closed (ha : ¬ m.Accepting) :
        (Pc.all r (.dropEntry x todo found) : Pc R K E).OfAll r fun q => q.Has g id :=
      absurd hg.2 ha
    have other {ph : Phase} (hph : m.control x = ph) (hne : ph ≠ .active) :
        (Pc.all r (.dropEntry x todo found) : Pc R K E).OfAll r fun q => q.Has g id :=
      rest fun e => hne (by rw [← hph, e]; exact hg.1.2)
    cases p
    case accepting | acceptingAgain => exact ⟨fun _ => at_ hh, closed⟩
    case active =>
      exact ⟨fun h => other h nofun, fun _ => at_ hh, fun h => other h nofun, fun h => other h nofun⟩
    case activeAgain =>
      refine ⟨fun h => other h nofun, fun _ => at_ ?_, fun h => other h nofun,
        fun h => other h nofun⟩
      rcases hh with rfl | h | h
      · exact .inl (List.mem_append_right _ List.mem_cons_self)
      · exact .inl (List.mem_append_left _ h)
      · exact .inr h
  case dropEntry => exact ⟨fun _ => at_ hh, fun _ => at_ hh⟩
  case returned => trivial

variable {s s' v : State R K E} {a : Action R K E} {ok : State R K E → Action R K E → Prop}
  {vs : List (State R K E)}

theorem offered_of_reach (hs : Reach (step cfg) ok State.new s) (hr : Reach (step cfg) ok s s')
    (hg : s.mem.Offered r g) : s'.mem.Offered r g :=
  hr.invariant_of_reach (fun s => s.mem.Offered r g) hg fun _ _ _ hu hg _ h =>
    (found_of_reach (hs.trans hu)).offered (hs.trans hu) h hg

omit [DecidableEq R] [DecidableEq K] in
theorem eq_of_work_all (h : p.work = .all r) : ∃ q, p = .all r q := by
  cases p <;> cases h
  exact ⟨_, rfl⟩

/-- A step of a call of `all`. -/
theorem all_cases (h : step cfg s a = some s') (hf : Pool.Fresh .idle s) {q : AllPc}
    (hq : s'.pc u = .all r q) :
    s.pc u = .all r q ∨ q = .iter ∨
      ∃ p ch mv, s.pc u = .all r p ∧ Collecting r u s ∧
        execute cfg u ch s.mem (Pc.all r p).code = some mv ∧ s'.mem = mv.mem ∧ mv.pc = .all r q := by
  rcases thread_cases h hf u with he | ⟨ch, mv, -, -, he, hm, hp⟩ | ⟨hj, -⟩ | ⟨-, hi⟩
  · exact .inl (he ▸ hq)
  · have hw : (s.pc u).work = .all r := by
      rw [← ((wp_work _).sound he).1, ← hp, hq]
      rfl
    obtain ⟨p, hpu⟩ := eq_of_work_all hw
    rw [hpu] at he
    refine .inr (.inr ⟨p, ch, mv, hpu, ⟨p, hpu, ?_⟩, he, hm, hp ▸ hq⟩)
    rintro found rfl
    exact nomatch he
  · rw [hq] at hj
    generalize s.pc u = p at hj
    cases hj
  · rw [hq] at hi
    exact .inr (.inl hi)

/-- What a call of `all` has collected and found, in every run. -/
theorem sound_of_trace (hs : Trace (step cfg) ok State.new vs s) (r : R) (u : Tid) :
    (s.pc u).OfAll r fun p => p.Sound s.mem
      (fun g => During vs (Collecting r u) fun v => v.mem.taskId g ≠ none ∧ 0 < v.mem.strong g)
      (fun g => During vs (Collecting r u) fun v =>
        (v.mem.taskId g ≠ none ∧ 0 < v.mem.strong g) ∧ v.mem.Accepting)
      (fun g => During vs (Collecting r u) fun v => v.mem.Acquirable g) := by
  induction hs with
  | start => exact fun _ h => nomatch h
  | @next vs s s' a hs ha h ih =>
    have hr := hs.reach
    intro q hq
    rcases all_cases h (fresh_of_reach hr) hq with hp | rfl | ⟨p, ch, mv, hp, hcol, he, hm, hpc⟩
    · exact (ih q hp).mono (fun _ _ => taskId_step hr h) (fun _ hU => hU.cons _)
        (fun _ hW => hW.cons _) fun _ hD => hD.cons _
    · trivial
    · refine AllPc.Sound.mono ?_ (fun _ _ h => h) (fun _ hU => During.cons hU _)
        (fun _ hW => During.cons hW _) fun _ hD => During.cons hD _
      rw [hm]
      refine (all_run (indexed_of_reach hr) ?_ ?_ ?_ (ih p hp)).sound he q hpc
      · exact fun g hg h0 => ⟨s, hs.last_mem, hcol, hg, h0⟩
      · rintro g ⟨v, hv, hc, hg⟩ hacc
        exact ⟨v, hv, hc, hg, (grows_of_reach (hs.reach_of_mem hv).2).accepting hacc⟩
      · rintro g ⟨v, hv, hc, ⟨hg, h0⟩, hacc⟩ hact
        obtain ⟨hr1, hr2⟩ := hs.reach_of_mem hv
        refine ⟨v, hv, hc, ⟨h0, ?_⟩, hacc⟩
        have hne := begun_of_reach hr1 g hg
        have hle := (grows_of_reach hr2).control g
        rw [hact] at hle
        revert hne hle
        cases v.mem.control g <;> decide

/-- A call of `all` does not miss a generation that is acquirable all along. -/
theorem has_of_trace (hs : Trace (step cfg) ok State.new vs s)
    (hstay : ∀ v ∈ vs, Collecting r u v → v.mem.Acquirable g) (hv : v ∈ vs)
    (hp : v.pc u = .all r .iter) (hg : v.mem.Offered r g) :
    (s.pc u).OfAll r fun p => ∃ id, s.mem.taskId g = some id ∧ p.Has g id := by
  induction hs with
  | start =>
    rw [List.mem_singleton.mp hv] at hp
    cases hp
  | @next vs s s' a hs ha h ih =>
    have hr := hs.reach
    intro q hq
    rcases List.mem_cons.mp hv with rfl | hv
    · obtain ⟨id, hid, -⟩ := hg
      rw [hp] at hq
      cases hq
      exact ⟨id, hid, trivial⟩
    · have hstay' : ∀ v ∈ vs, Collecting r u v → v.mem.Acquirable g :=
        fun v hv => hstay v (List.mem_cons_of_mem _ hv)
      obtain ⟨hr1, hr2⟩ := hs.reach_of_mem hv
      obtain ⟨id, hid, -, hl⟩ := offered_of_reach hr1 hr2 hg
      refine ⟨id, taskId_step hr h hid, ?_⟩
      rcases all_cases h (fresh_of_reach hr) hq with hp | rfl | ⟨p, ch, mv, hp, hcol, he, hm, hpc⟩
      · obtain ⟨id', hid', hh⟩ := ih hstay' hv q hp
        obtain rfl := Option.some.inj (hid.symm.trans hid')
        exact hh
      · trivial
      · obtain ⟨id', hid', hh⟩ := ih hstay' hv p hp
        obtain rfl := Option.some.inj (hid.symm.trans hid')
        have hacq := hstay' s hs.last_mem hcol
        have hl := hl.resolve_right fun hf => nomatch hf.symm.trans hacq.1.2
        have hso := sound_of_trace hs r u p hp
        exact (all_has hso (known_of_reach hr).1 hid hl hacq hh).sound he q hpc

/-- **`all` is sound and complete.** In every run, what a call of `all` for a type has returned:
it holds nothing twice; it holds every generation of the type that an acquisition had returned when
the call began and that was leased and active, with the domain accepting, throughout the call; and
whatever it holds was so at some instant of the call. -/
theorem all_is_sound_and_complete (hs : Trace (step cfg) (fun _ _ => True) State.new vs s)
    {found : List GenId} (hp : s.pc u = .all r (.returned found)) :
    found.Nodup ∧
    (∀ g v w q, v ∈ vs → v.pc u = .all r .iter → v.pc w = .acquire q (.returned (.ok g)) →
      q.ident.ty = r → (∀ v' ∈ vs, Collecting r u v' → v'.mem.Acquirable g) → g ∈ found) ∧
    ∀ g ∈ found, During vs (Collecting r u) fun v => v.mem.Acquirable g := by
  obtain ⟨hn, hd⟩ := sound_of_trace hs r u _ hp
  refine ⟨hn, fun g v w q hv hvu hw hty hstay => ?_, hd⟩
  have hoff := (found_of_reach (hs.reach_of_mem hv).1).2 w
  rw [hw] at hoff
  have hoff : v.mem.Offered q.ident.ty g := hoff
  rw [hty] at hoff
  exact (has_of_trace hs hstay hv hvu hoff _ hp).choose_spec.2

end

/-- A unique generation, and a call of `all` that returns it. -/
def allRun : List (Action Unit Unit Unit) :=
  .call (.acquire ⟨.spawn, ⟨(), ()⟩⟩) :: List.replicate 14 (.run 0 .go) ++
    [.call (.all ()), .run 2 .go, .run 2 (.pick 0)] ++ List.replicate 7 (.run 2 .go)

theorem allRun_acquirable : During (visited (step (.single false)) [State.new] State.new allRun)
    (Collecting () 2) fun v => v.mem.Acquirable 0 := by
  have hp : ((afterwards false allRun).get (by decide +kernel)).pc 2 = .all () (.returned [0]) := by
    decide +kernel
  exact (all_is_sound_and_complete (trace_exec (P := fun _ => True) (fun _ _ h => h)
    (fun _ _ => trivial) (by decide +kernel)) hp).2.2 0 List.mem_cons_self

end Resourcery
