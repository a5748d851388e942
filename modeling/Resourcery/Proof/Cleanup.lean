import Resourcery.Logic.Threads
import Resourcery.Proof.Grants

/-!
# What a cleanup leaves behind

A construction guard that is dropped, and the cleanup of a generation that has come to its end,
detach the slot of their establishment or find it gone (`Left`), as long as no key operation panics.
An attached slot that is starting has an owner.
-/

namespace Resourcery

open Interleaving Function Transition ResourceContext

variable {R K E : Type}

/-- The establishment `x` of `i` is gone for good: its slot has been detached or taken over. -/
def Memory.Left (m : Memory R K E) (i : Ident R K) (x : Site) : Prop :=
  x.slot < m.nextSlot i ∧
    (¬ m.Attached i x.slot ∨ x.generation < (m.state i x.slot).generation)

namespace Registry

/-- A removal that does not find its establishment, or has removed it, leaves none. -/
def RemovePc.Gone (m : Memory R K E) (i : Ident R K) (x : Site) : RemovePc → Prop
  | .dropState false | .dropEntry => m.Left i x
  | _ => True

end Registry

/-- What a thread that has removed an establishment knows of it. -/
def Pc.Gone (m : Memory R K E) : Pc R K E → Prop
  | .acquire q (.guard n generation _ (.remove p)) => p.Gone m q.ident ⟨n, generation⟩
  | .acquire q (.guard n generation _ .notify) => m.Left q.ident ⟨n, generation⟩
  | .supervise i _ _ _ (.cleanup x _ p) => p.Gone m i x
  | .supervise i _ _ site (.publish ..) | .supervise i _ _ site .removeLive =>
    ForSome (m.Left i) site
  | .supervise i _ _ site (.finalize exit _) | .supervise i _ _ site (.dropSender exit)
  | .supervise i _ _ site (.ended exit) => exit = .ran → ForSome (m.Left i) site
  | _ => True

/-- The establishment a thread is removing. -/
def Pc.removing? : Pc R K E → Option (Ident R K × Site)
  | .acquire _ (.guard _ _ _ (.remove .dropEntry)) | .supervise _ _ _ _ (.cleanup _ _ .dropEntry) =>
    none
  | .acquire q (.guard n generation _ (.remove _)) => some (q.ident, ⟨n, generation⟩)
  | .supervise i _ _ _ (.cleanup x _ _) => some (i, x)
  | _ => none

variable {cfg : Config R K} {t u : Tid} {ch : Choice} {m m' : Memory R K E} {p : Pc R K E}
  {g : GenId} {i : Ident R K} {x : Site} {n : ℕ}

/-- An establishment that is gone is not attached. -/
theorem Memory.Left.not_attached (h : m.Left i x) :
    ¬ (m.Attached i x.slot ∧ (m.state i x.slot).generation = x.generation) := by
  rintro ⟨ha, hg⟩
  rcases h.2 with hn | hlt
  · exact hn ha
  · exact hlt.ne' hg

/-- A finished generation was granted its site. -/
theorem Sites.granted (hm : Sites m) (hi : m.ident g = some i) (hx : m.site g = some x) :
    m.Granted i x :=
  hm.bound g i x hi hx

theorem Memory.Owned.granted (h : m.Owned i x) : m.Granted i x := by
  refine ⟨h.1, ?_⟩
  rw [h.2.1]
  exact Nat.le_refl _

theorem granted_of_removing (hm : Sites m) (ho : p.Owns m) (hk : p.Known m)
    (h : p.removing? = some (i, x)) : m.Granted i x := by
  unfold Pc.removing? at h
  split at h
  · cases h
  · cases h
  · rename_i q n generation result r hr
    cases h
    refine (ho.owned ?_).granted
    cases r <;> first | rfl | exact (hr rfl).elim
  · rename_i j g id site y outcome r hr
    cases h
    exact hm.granted hk.1.2.1 (hk.1.2.2.trans hk.2.2)
  · cases h

theorem Registry.RemovePc.Gone.mono {r : RemovePc} (h : r.Gone m i x)
    (hl : m.Left i x → m'.Left i x) : r.Gone m' i x := by
  unfold RemovePc.Gone at *
  split at h
  · exact hl h
  · exact hl h
  · trivial

theorem Pc.Gone.mono (h : p.Gone m) (hl : ∀ i x, m.Left i x → m'.Left i x) : p.Gone m' := by
  have site {i : Ident R K} {site : Option Site} (h : ForSome (m.Left i) site) :
      ForSome (m'.Left i) site := by
    cases site with
    | none => trivial
    | some x => exact hl i x h
  unfold Pc.Gone at *
  split at h
  · exact h.mono (hl _ _)
  · exact hl _ _ h
  · exact h.mono (hl _ _)
  · exact site h
  · exact site h
  · exact fun e => site (h e)
  · exact fun e => site (h e)
  · exact fun e => site (h e)
  · trivial

variable [DecidableEq R] [DecidableEq K]

/-! ## Removals -/

/-- **Rule for `remove_if_same`.** What it promises when no key operation panics. -/
theorem Registry.wp_removeIfSame_gone {α : Type} {Q : Memory R K E → α → Option α → Prop}
    {goto : RemovePc → α} {panic ret : α} {p : RemovePc} (hx : p ≠ .dropEntry → m.Granted i x)
    (hp : p.Gone m i x) (hpanic : p = .entry → Q m panic none)
    (hgoto : ∀ m' p', p'.Gone m' i x → Q m' (goto p') none)
    (hret : ∀ m', m'.Left i x → Q m' ret none) :
    (removeIfSame i x.slot x.generation goto panic ret p).wp cfg t m Q := by
  cases p with
  | entry =>
    have hx := hx fun h => by cases h
    refine ⟨hpanic rfl, fun _ => ⟨fun n hn => ?_, fun hn => ?_⟩⟩
    · dsimp only
      split
      · exact hgoto _ _ trivial
      · rename_i hne
        refine hgoto _ _ ⟨hx.1, .inl fun ha => hne ?_⟩
        exact hn.symm.trans ha
    · refine hgoto _ _ ⟨hx.1, .inl fun ha => ?_⟩
      cases hn.symm.trans ha
  | hasGeneration =>
    have hx := hx fun h => by cases h
    have same (st : RegistrySlotState) (hst : m.state i x.slot = st) (m' : Memory R K E)
        (h1 : m'.nextSlot = m.nextSlot) (h2 : m'.state = m.state) :
        RemovePc.Gone m' i x (.dropState (st.generation = x.generation)) := by
      by_cases hg : st.generation = x.generation
      · rw [decide_eq_true hg]
        trivial
      · rw [decide_eq_false hg]
        refine ⟨h1 ▸ hx.1, .inr ?_⟩
        rw [h2, hst]
        exact Nat.lt_of_le_of_ne (hst ▸ hx.2) (Ne.symm hg)
    exact fun _ => ⟨fun generation hst => hgoto _ _ (same _ hst _ rfl rfl),
      fun generation g hst => hgoto _ _ (same _ hst _ rfl rfl)⟩
  | dropState b =>
    cases b with
    | false => exact hgoto _ _ hp
    | true => exact hgoto _ _ trivial
  | remove =>
    have hx := hx fun h => by cases h
    refine hgoto _ _ ⟨hx.1, .inl fun ha => ?_⟩
    have hnone : update m.entries i none i = none := update_self i none m.entries
    cases hnone.symm.trans ha
  | dropEntry => exact hret _ hp

/-- The guard's `remove_if_same`. -/
theorem guardRemove_gone {q : Request R K} {generation : ℕ} {result : Acquired}
    {r : Registry.RemovePc}
    (hx : ∀ i x, (Pc.acquire q (.guard n generation result (.remove r)) : Pc R K E).removing? =
      some (i, x) → m.Granted i x)
    (hp : (Pc.acquire q (.guard n generation result (.remove r)) : Pc R K E).Gone m) :
    (Pc.acquire q (.guard n generation result (.remove r)) : Pc R K E).code.wp cfg t m
      fun m' p' c => (Pc.acquire q (.guard n generation result (.remove r))).panic? = some p' ∨
        p'.Gone m' ∧ ForSome (Pc.Gone m') c := by
  have hgranted (hr : r ≠ .dropEntry) : m.Granted q.ident ⟨n, generation⟩ :=
    hx _ _ (by cases r <;> first | rfl | exact absurd rfl hr)
  rw [Pc.code_guardRemove]
  exact Registry.wp_removeIfSame_gone (x := ⟨n, generation⟩) hgranted hp
    (by rintro rfl; exact .inl rfl) (fun _ _ hp' => .inr ⟨hp', trivial⟩)
    fun _ hl => .inr ⟨hl, trivial⟩

/-- The `remove_if_same` of a supervising future. -/
theorem cleanup_gone {g : GenId} {id : ℕ} {site : Option Site} {outcome : ResourceOutcome E}
    {r : Registry.RemovePc}
    (hx : ∀ j y, (Pc.supervise i g id site (.cleanup x outcome r)).removing? = some (j, y) →
      m.Granted j y) (hsite : site = some x)
    (hp : (Pc.supervise i g id site (.cleanup x outcome r)).Gone m) :
    (Pc.supervise i g id site (.cleanup x outcome r)).code.wp cfg t m fun m' p' c =>
      (Pc.supervise i g id site (.cleanup x outcome r)).panic? = some p' ∨
        p'.Gone m' ∧ ForSome (Pc.Gone m') c := by
  have hgranted (hr : r ≠ .dropEntry) : m.Granted i x :=
    hx _ _ (by cases r <;> first | rfl | exact absurd rfl hr)
  rw [Pc.code_cleanup]
  exact Registry.wp_removeIfSame_gone hgranted hp (by rintro rfl; exact .inl rfl)
    (fun _ _ hp' => .inr ⟨hp', trivial⟩) fun _ hl => .inr ⟨hsite ▸ hl, trivial⟩

theorem gone_run (hx : ∀ i x, p.removing? = some (i, x) → m.Granted i x) (hc : p.Known m)
    (hp : p.Gone m) : p.code.wp cfg t m fun m' p' c =>
      p.panic? = some p' ∨ p'.Gone m' ∧ ForSome (Pc.Gone m') c := by
  cases p using Pc.points
  case acquire_guard_remove_entry | acquire_guard_remove_hasGeneration
      | acquire_guard_remove_dropState_false | acquire_guard_remove_dropState_true
      | acquire_guard_remove_remove | acquire_guard_remove_dropEntry => exact guardRemove_gone hx hp
  case supervise_cleanup_entry | supervise_cleanup_hasGeneration
      | supervise_cleanup_dropState_false | supervise_cleanup_dropState_true
      | supervise_cleanup_remove | supervise_cleanup_dropEntry => exact cleanup_gone hx hc.2.2 hp
  all_goals
    repeat' first
      | exact trivial
      | exact .inr ⟨hp, trivial⟩
      | exact .inr ⟨fun _ => hp, trivial⟩
      | exact .inr ⟨trivial, trivial⟩
      | exact .inr ⟨nofun, trivial⟩
      | exact .inl rfl
      | apply And.intro
      | intro _

section

variable {s s' : State R K E} {a : Action R K E} {ok : State R K E → Action R K E → Prop}

theorem left_step (hs : Reach (step cfg) ok State.new s) (h : step cfg s a = some s')
    (hl : s.mem.Left i x) : s'.mem.Left i x := by
  refine ⟨hl.1.trans_le ((grows_step h).nextSlot i), ?_⟩
  exact hl.2.imp (fun hn ha => hn ((grows_step h).attached i x.slot hl.1 ha))
    fun hlt => hlt.trans_le (generation_step hs h hl.1)

/-- An establishment that is gone stays so. -/
theorem left_of_reach (hs : Reach (step cfg) ok State.new s) (hr : Reach (step cfg) ok s s')
    (hl : s.mem.Left i x) : s'.mem.Left i x :=
  hr.invariant_of_reach (fun s => s.mem.Left i x) hl fun _ _ _ hu hl _ h =>
    left_step (hs.trans hu) h hl

variable (hok : ∀ s a, ok s a → a.KeysSound)

include hok

/-- **Removals**, in every run in which no key operation panics. -/
theorem gone_of_reach (hs : Reach (step cfg) ok State.new s) (u : Tid) : (s.pc u).Gone s.mem := by
  revert u
  refine hs.invariant_of_reach (fun s => ∀ u, (s.pc u).Gone s.mem) (fun _ => trivial) ?_
  intro s a s' hs ih ha h
  have hc := sited_of_reach hs
  have hk := (known_of_reach hs).2
  refine forall_pc_exec (fun m _ p => p.Gone m) h
    (fun u _ => (ih u).mono fun i x => left_step hs h) ?_ ?_ ?_ ?_
  · rintro t ch mv rfl - he
    refine wp_calm (gone_run (fun i x => granted_of_removing hc.sites (hc.owns t) (hk t)) (hk t)
      (ih t)) he ?_
    rintro rfl
    exact nomatch hok s _ ha
  · rintro t p p' hj rfl -
    have hp := ih t
    generalize s.pc t = p at hj hp
    cases hj <;> first | exact trivial | exact nofun
  · rintro c m p - hcall
    cases hcall <;> exact trivial
  · rintro m c hh
    cases hh
    exact trivial

end

/-! ## The way of an owner -/

/-- An acquisition that ends, or has ended, in a reference. -/
def ResourceContext.AcquirePc.succeeds : AcquirePc → Bool
  | .settle _ _ _ .dropState | .settle _ _ _ .notify | .settle _ _ _ .start | .start _
  | .deliver _ | .returned (.ok _) => true
  | _ => false

def Pc.succeeds : Pc R K E → Bool
  | .acquire _ p => p.succeeds
  | _ => false

/-- The site an acquisition has just given up. -/
def Pc.leaves? : Pc R K E → Option (Ident R K × Site)
  | .acquire q (.guard n generation _ (.remove .dropEntry)) => some (q.ident, ⟨n, generation⟩)
  | _ => none

theorem owner_run (h : p.owner? = some (i, x)) : p.code.wp cfg t m fun m' p' _ =>
    p.panic? = some p' ∨ p'.owner? = some (i, x) ∨
      (p'.succeeds = true ∧ ∃ g, m'.state i x.slot = .active x.generation g) ∨
      p'.leaves? = some (i, x) := by
  cases p with
  | acquire q p =>
    cases q, p using AcquirePc.points
    case' acquire.claim_dropState claim => cases claim
    case acquire.guard_remove_entry =>
      refine ⟨.inl rfl, fun _ => ⟨fun _ _ => ?_, fun _ => .inr (.inr (.inr h))⟩⟩
      dsimp only
      split
      · exact .inr (.inl h)
      · exact .inr (.inr (.inr h))
    case acquire.settle_storeActive n generation g =>
      cases h
      exact .inr (.inr (.inl ⟨rfl, g, update₂_self _ _ _ _⟩))
    all_goals first
      | exact absurd (h : none = some (i, x)) nofun
      | repeat' first
        | apply And.intro
        | intro _
        | exact .inl rfl
        | exact .inr (.inl h)
        | exact .inr (.inr (.inr h))
  | _ => cases h

/-- An acquisition that has succeeded goes on to its reference. -/
theorem succeeds_run (h : p.succeeds = true) :
    p.code.wp cfg t m fun _ p' _ => p'.succeeds = true := by
  cases p with
  | acquire q p =>
    cases p with
    | settle n generation g p =>
      cases p <;> first | exact rfl | exact absurd (h : false = true) nofun
    | start | deliver => rfl
    | returned => trivial
    | _ => exact absurd (h : false = true) nofun
  | _ => exact absurd (h : false = true) nofun

/-- What an instruction makes starting. -/
def Instr.starts? {α : Type} (m : Memory R K E) : Instr R K E α → Option (Ident R K × Site)
  | .insertSlot i _ => some (i, ⟨m.nextSlot i, 1⟩)
  | .storeState i n (.starting generation) _ => some (i, ⟨n, generation⟩)
  | _ => none

omit [DecidableEq R] [DecidableEq K] in
theorem grants_of_code (h : p.code.starts? m = some (i, x)) : p.grants? m = some (i, x) := by
  cases p using Pc.points
  all_goals first
    | exact absurd (h : none = some (i, x)) nofun
    | exact h

/-- A slot that is attached and starting was so before, or is granted. -/
theorem wp_starting {α : Type} {ins : Instr R K E α} {generation : ℕ} :
    ins.wp cfg t m fun m' _ _ => m'.Attached i n → m'.state i n = .starting generation →
      m.Attached i n ∧ m.state i n = .starting generation ∨
        ins.starts? m = some (i, ⟨n, generation⟩) := by
  cases ins
  case insertSlot j k =>
    intro ha hst
    change update m.entries j (some (m.nextSlot j)) i = some n at ha
    change update₂ m.state j (m.nextSlot j) (.starting 1) i n = .starting generation at hst
    rw [update_apply] at ha
    rw [update₂_apply] at hst
    split_ifs at ha hst with h1 h2 h2
    · cases hst
      exact .inr (by rw [h2.1, h2.2]; rfl)
    · cases ha
      exact absurd ⟨h1, rfl⟩ h2
    · exact absurd h2.1 h1
    · exact .inl ⟨ha, hst⟩
  case removeEntry j k =>
    intro ha hst
    change update m.entries j none i = some n at ha
    rw [update_apply] at ha
    split_ifs at ha
    exact .inl ⟨ha, hst⟩
  case storeState j k st _ =>
    intro ha hst
    change update₂ m.state j k st i n = .starting generation at hst
    rw [update₂_apply] at hst
    split_ifs at hst with h1
    · obtain ⟨rfl, rfl⟩ := h1
      cases hst
      exact .inr rfl
    · exact .inl ⟨ha, hst⟩
  all_goals
    repeat' first
      | exact trivial
      | apply And.intro
      | intro _
    all_goals exact .inl ⟨‹_›, ‹_›⟩

section

variable {s s' : State R K E} {a : Action R K E} {ok : State R K E → Action R K E → Prop}

/-- A step at the point of a grant grants the claim. -/
theorem owner_of_grants (hs : Reach (step cfg) ok State.new s) (h : step cfg s a = some s')
    (ha : a.actor = some t) (hg : (s.pc t).grants? s.mem = some (i, x)) :
    (s'.pc t).owner? = some (i, x) := by
  obtain ⟨hb, hsees⟩ := sees_of_reach hs
  cases a with
  | run v ch =>
    cases ha
    obtain ⟨-, ho, -⟩ := pc_of_run h (wp_grant hb (hsees t) hg)
    exact ho
  | dropFuture v | dropSupervisor v | unwind v =>
    cases ha
    cases step_cases h with
    | jump hr hj =>
      generalize hp : s.pc _ = p at hj
      cases hj <;> exact nomatch hp ▸ hg
    | task about => cases about
    | hold hh => cases hold_cases hh
  | _ => cases ha

theorem starting_step (hs : Reach (step cfg) ok State.new s) (h : step cfg s a = some s')
    {generation : ℕ} (ha : s'.mem.Attached i n) (hst : s'.mem.state i n = .starting generation) :
    (s.mem.Attached i n ∧ s.mem.state i n = .starting generation) ∨
      ∃ u, (s'.pc u).owner? = some (i, ⟨n, generation⟩) := by
  have hmem : s'.mem.Attached i n → s'.mem.state i n = .starting generation →
      (s.mem.Attached i n ∧ s.mem.state i n = .starting generation) ∨
        ∃ t, a.actor = some t ∧ (s.pc t).grants? s.mem = some (i, ⟨n, generation⟩) := by
    refine mem_step (fun m => m.Attached i n → m.state i n = .starting generation →
      (s.mem.Attached i n ∧ s.mem.state i n = .starting generation) ∨
        ∃ t, a.actor = some t ∧ (s.pc t).grants? s.mem = some (i, ⟨n, generation⟩)) h
      (fun ha hst => .inl ⟨ha, hst⟩) ?_ ?_ (fun _ _ _ ha hst => .inl ⟨ha, hst⟩) ?_
    · rintro t p hat rfl -
      refine wp_starting.mono fun m' _ _ hw ha hst => (hw ha hst).imp id fun hg => ?_
      exact ⟨t, hat, grants_of_code hg⟩
    · rintro c m p - hc
      cases hc <;> exact fun ha hst => .inl ⟨ha, hst⟩
    · rintro m c hh
      cases hh <;> exact fun ha hst => .inl ⟨ha, hst⟩
  exact (hmem ha hst).imp id fun ⟨t, hat, hg⟩ => ⟨t, owner_of_grants hs h hat hg⟩

/-- An owner keeps its claim, activates its slot or leaves its establishment behind. -/
theorem keeps_owner_step (hok : ∀ s a, ok s a → a.KeysSound) (hs : Reach (step cfg) ok State.new s)
    (hok' : ok s a) (h : step cfg s a = some s') (ho : (s.pc u).owner? = some (i, x)) :
    (s'.pc u).owner? = some (i, x) ∨
      ((s'.pc u).succeeds = true ∧ ∃ g, s'.mem.state i x.slot = .active x.generation g) ∨
      s'.mem.Left i x := by
  have hf := fresh_of_reach hs
  have hs' : Reach (step cfg) ok State.new s' := hs.tail ⟨a, hok', h⟩
  rcases thread_cases h hf u with hpc | ⟨ch, mv, rfl, -, he, hm, hp⟩ | ⟨hj, -⟩ | ⟨hidle, -⟩
  · exact .inl (hpc ▸ ho)
  · have hc : ch ≠ .keyPanics := by
      rintro rfl
      exact nomatch hok s _ hok'
    rcases wp_calm (owner_run ho) he hc with hk | hk | hk
    · exact .inl (hp ▸ hk)
    · exact .inr (.inl (by rw [hp, hm]; exact hk))
    · have hgone := gone_of_reach hok hs' u
      rw [← hp] at hk
      unfold Pc.leaves? at hk
      split at hk <;> cases hk
      rename_i q n generation result hq
      rw [hq] at hgone
      exact .inr (.inr hgone)
  · left
    revert hj ho
    generalize s.pc u = p
    generalize s'.pc u = p'
    intro ho hj
    cases hj <;> exact ho
  · rw [hidle] at ho
    cases ho

/-- **A starting slot has an owner**, as long as no key operation panics and the slot is
attached. -/
theorem owner_of_starting (hok : ∀ s a, ok s a → a.KeysSound) (hs : Reach (step cfg) ok State.new s)
    {generation : ℕ} (ha : s.mem.Attached i n) (hst : s.mem.state i n = .starting generation) :
    ∃ u, (s.pc u).owner? = some (i, ⟨n, generation⟩) := by
  revert i n generation
  refine hs.invariant_of_reach (fun s => ∀ {i : Ident R K} {n generation : ℕ},
    s.mem.Attached i n → s.mem.state i n = .starting generation →
      ∃ u, (s.pc u).owner? = some (i, ⟨n, generation⟩)) (fun ha _ => nomatch ha) ?_
  intro s a s' hs ih hok' h i n generation ha hst
  rcases starting_step hs h ha hst with ⟨ha0, hst0⟩ | hu
  · obtain ⟨u, hu⟩ := ih ha0 hst0
    rcases keeps_owner_step hok hs hok' h hu with ho | ⟨-, g, hg⟩ | hl
    · exact ⟨u, ho⟩
    · exact nomatch hst.symm.trans hg
    · exact absurd ⟨ha, by rw [hst]; rfl⟩ hl.not_attached
  · exact hu

end

end Resourcery
