import Resourcery.Logic.Acquisitions
import Resourcery.Proof.Cleanup
import Resourcery.Proof.Exclusivity
import Resourcery.Proof.Index
import Resourcery.Proof.Results

/-!
# What a failed acquisition leaves

An acquisition that has ended in anything but a reference leaves nothing behind: the establishment
it had claimed is gone, and the generation it may have created is not registered, unless the domain
stopped accepting after the registration. It never writes to a slot but its own.
-/

namespace Resourcery

open Interleaving Function Transition ResourceContext

variable {R K E : Type}

/-! ## Its own establishment -/

/-- From `m` to `m'` the acquisition at `p` writes only to a slot that it is being granted, or that
it owns and that is starting with its number, and to the entry of such a slot. -/
structure Confined (i : Ident R K) (p : Pc R K E) (m m' : Memory R K E) : Prop where
  state : ∀ j n, m'.state j n ≠ m.state j n → j = i ∧ ∃ x, x.slot = n ∧
    (p.grants? m = some (i, x) ∨ p.owner? = some (i, x) ∧ m.state i n = .starting x.generation)
  entries : ∀ j, m'.entries j ≠ m.entries j → j = i ∧ ∃ x,
    (p.grants? m = some (i, x) ∨ p.owner? = some (i, x) ∧ m.Attached i x.slot ∧
      m.state i x.slot = .starting x.generation)

/-! ## The generation it has made -/

/-- What becomes of the generation `g` an acquisition has made: it ends in a reference, or uses or
drops the sender of the gate of `g` and fails with `ShuttingDown`. -/
def ResourceContext.AcquirePc.Ends (m : Memory R K E) (g : GenId) : AcquirePc → Prop
  | .create _ (.dropEntry _) | .create _ (.dropSender _) => m.start g ≠ .pending
  | .create _ p => p.gen? = some g
  | .settle _ _ _ .dropResource => m.start g ≠ .pending
  | .settle _ _ x _ => x = g
  | .guard _ _ result _ => result = .err .shuttingDown ∧ m.start g ≠ .pending
  | .returned result => (∀ x, result ≠ .ok x) → result = .err .shuttingDown ∧ m.start g ≠ .pending
  | .start _ | .deliver _ => True
  | _ => False

variable {cfg : Config R K} {t u : Tid} {ch : Choice} {m m' : Memory R K E} {q : Request R K}
  {p : AcquirePc} {g : GenId} {i : Ident R K} {x : Site}

theorem Confined.of_eq {p : Pc R K E} (h1 : m'.state = m.state) (h2 : m'.entries = m.entries) :
    Confined i p m m' :=
  ⟨fun j n h => absurd (congrFun (congrFun h1 j) n) h, fun j h => absurd (congrFun h2 j) h⟩

theorem ResourceContext.AcquirePc.Ends.mono (h : p.Ends m g) (hg : Grows m m') : p.Ends m' g := by
  unfold AcquirePc.Ends at *
  split <;> simp only at h
  case h_1 | h_2 | h_4 => exact hg.start g h
  case h_6 => exact ⟨h.1, hg.start g h.2⟩
  case h_7 => exact fun hf => ⟨(h hf).1, hg.start g (h hf).2⟩
  all_goals exact h

/-- A creator that has registered its generation holds the sender of its gate. -/
theorem gate_of_registered {site : Option Site} {p : CreatePc} {id : ℕ}
    (h : p.registered? = some (g, id)) : 0 < (Pc.acquire q (.create site p) : Pc R K E).gate g := by
  unfold CreatePc.registered? at h
  split at h <;> cases h <;> exact isGen_pos g

variable [DecidableEq R] [DecidableEq K]

theorem update₂_ne {β γ δ : Type} [DecidableEq β] [DecidableEq γ] {f : β → γ → δ} {a a' : β}
    {b b' : γ} {c : δ} (h : update₂ f a b c a' b' ≠ f a' b') : a' = a ∧ b' = b := by
  by_contra hne
  rw [update₂_apply, if_neg hne] at h
  exact h rfl

theorem update_ne {β δ : Type} [DecidableEq β] {f : β → δ} {a a' : β} {c : δ}
    (h : update f a c a' ≠ f a') : a' = a := by
  by_contra hne
  rw [update_of_ne hne] at h
  exact h rfl

theorem confined_run (ho : (Pc.acquire q p : Pc R K E).Owns m)
    (hs : (Pc.acquire q p : Pc R K E).Sees m) :
    (Pc.acquire q p : Pc R K E).code.wp cfg t m fun m' _ _ =>
      Confined q.ident (Pc.acquire q p) m m' := by
  cases q, p using AcquirePc.points
  case claim_insert =>
    refine ⟨fun j n h => ?_, fun j h => ⟨update_ne h, _, .inl rfl⟩⟩
    obtain ⟨rfl, rfl⟩ := update₂_ne h
    exact ⟨rfl, _, rfl, .inl rfl⟩
  case claim_takeover n generation g =>
    refine ⟨fun j n h => ?_, fun j h => absurd rfl h⟩
    obtain ⟨rfl, rfl⟩ := update₂_ne h
    exact ⟨rfl, _, rfl, .inl rfl⟩
  case settle_storeActive n generation g =>
    refine ⟨fun j n h => ?_, fun j h => absurd rfl h⟩
    obtain ⟨rfl, rfl⟩ := update₂_ne h
    exact ⟨rfl, _, rfl, .inr ⟨rfl, (ho.owned rfl).2.1⟩⟩
  case guard_remove_remove n generation result =>
    refine ⟨fun j n h => absurd rfl h, fun j h => ⟨update_ne h, ⟨n, generation⟩, .inr ⟨rfl, hs, ?_⟩⟩⟩
    exact (ho.owned (i := q.ident) (x := ⟨n, generation⟩) rfl).2.1
  all_goals
    repeat' first
      | exact .of_eq rfl rfl
      | exact trivial
      | apply And.intro
      | intro _

theorem ends_run (hp : p.Ends m g) : (Pc.acquire q p : Pc R K E).code.wp cfg t m fun m' p' _ =>
    (Pc.acquire q p).panic? = some p' ∨ p'.OfAcquire fun _ p => p.Ends m' g := by
  have sent {st : Start} (hst : st ≠ .pending) : update m.start g st g ≠ .pending := by
    rwa [update_self]
  cases q, p using AcquirePc.points
  case guard_remove_entry =>
    refine ⟨.inl rfl, fun _ => ⟨fun _ _ => ?_, fun _ => .inr hp⟩⟩
    dsimp only
    split <;> exact .inr hp
  case create_dropStart site x =>
    obtain rfl : x = g := Option.some.inj hp
    exact .inr (sent fun h => by cases h)
  case settle_lateStart n generation x =>
    obtain rfl : x = g := hp
    exact .inr (sent fun h => by cases h)
  case guard_notify => exact .inr fun _ => hp
  case create_spawnSupervisor_some x _ _ _ => exact .inr (Option.some.inj hp)
  case create_dropSender_none => exact .inr fun _ => ⟨rfl, hp⟩
  case create_dropSender_some => exact .inr ⟨rfl, hp⟩
  case settle_dropResource => exact ⟨fun _ => .inr ⟨rfl, hp⟩, fun _ => .inr ⟨rfl, hp⟩⟩
  case deliver => exact .inr fun h => absurd rfl (h _)
  all_goals first
    | exact False.elim hp
    | exact absurd (hp : none = some g).symm (Option.some_ne_none g)
    | repeat' first
      | exact trivial
      | exact .inr hp
      | exact .inr trivial
      | apply And.intro
      | intro _

section

variable {s s' : State R K E} {a : Action R K E} {ok : State R K E → Action R K E → Prop}
  {result : Acquired}

/-- In a run to `s`, thread `u` has held the claim on the site `x` of `i`. -/
def HadClaimed (cfg : Config R K) (ok : State R K E → Action R K E → Prop) (u : Tid)
    (i : Ident R K) (x : Site) (s : State R K E) : Prop :=
  ∃ v, Reach (step cfg) ok State.new v ∧ Reach (step cfg) ok v s ∧
    (v.pc u).owner? = some (i, x)

/-- In a run to `s`, the acquisition of thread `u` has made the generation `g`. -/
def HadMade (cfg : Config R K) (ok : State R K E → Action R K E → Prop) (u : Tid) (g : GenId)
    (s : State R K E) : Prop :=
  ∃ v ch w, Reach (step cfg) ok State.new v ∧ (v.pc u).Makes g v.mem ∧ ok v (.run u ch) ∧
    step cfg v (.run u ch) = some w ∧ Reach (step cfg) ok w s

/-- An acquisition that has succeeded stays so. -/
theorem succeeds_step (hs : Reach (step cfg) ok State.new s) (h : step cfg s a = some s')
    (hu : (s.pc u).succeeds = true) : (s'.pc u).succeeds = true := by
  rcases thread_cases h (fresh_of_reach hs) u with hpc | ⟨ch, mv, rfl, -, he, -, hp⟩ | ⟨hj, -⟩ |
      ⟨hidle, -⟩
  · rw [hpc]
    exact hu
  · rw [hp]
    exact (succeeds_run hu).sound he
  · revert hj hu
    generalize s.pc u = p
    generalize s'.pc u = p'
    intro hu hj
    cases hj <;> cases hu
  · rw [hidle] at hu
    cases hu

/-- What an acquisition that has failed had claimed is gone. -/
theorem left_of_returned (hok : ∀ s a, ok s a → a.KeysSound) (hx : HadClaimed cfg ok u i x s)
    (hu : s.pc u = .acquire q (.returned result)) (hf : ∀ g, result ≠ .ok g) : s.mem.Left i x := by
  obtain ⟨v, hv, hr, ho⟩ := hx
  have hway : (s.pc u).owner? = some (i, x) ∨ (s.pc u).succeeds = true ∨ s.mem.Left i x := by
    refine hr.invariant_of_reach (fun s => (s.pc u).owner? = some (i, x) ∨
      (s.pc u).succeeds = true ∨ s.mem.Left i x) (.inl ho) ?_
    intro w a w' hw ih ha h
    have hw := hv.trans hw
    rcases ih with ho | hsucc | hl
    · rcases keeps_owner_step hok hw ha h ho with h | h | h
      · exact .inl h
      · exact .inr (.inl h.1)
      · exact .inr (.inr h)
    · exact .inr (.inl (succeeds_step hw h hsucc))
    · exact .inr (.inr (left_step hw h hl))
  rw [hu] at hway
  rcases hway with h | h | h
  · cases h
  · cases result with
    | ok g => exact absurd rfl (hf g)
    | _ => cases h
  · exact h

theorem ends_step (hok : ∀ s a, ok s a → a.KeysSound) (hs : Reach (step cfg) ok State.new s)
    (ha : ok s a) (h : step cfg s a = some s')
    (hu : ∃ q p, s.pc u = .acquire q p ∧ p.Ends s.mem g) :
    ∃ q p, s'.pc u = .acquire q p ∧ p.Ends s'.mem g := by
  obtain ⟨q, p, hp, hends⟩ := hu
  rcases thread_cases h (fresh_of_reach hs) u with hpc | ⟨ch, mv, rfl, -, he, hm, hpc⟩ | ⟨hj, hm⟩ |
      ⟨hidle, -⟩
  · exact ⟨q, p, hpc.trans hp, hends.mono (grows_step h)⟩
  · have hc : ch ≠ .keyPanics := by
      rintro rfl
      exact nomatch hok s _ ha
    have hwork := work_step h (fresh_of_reach hs) (u := u) (by rw [hp]; nofun)
    rw [hp] at he hwork
    have hnext := wp_calm (Q := fun m' p' _ => p'.OfAcquire fun _ p => p.Ends m' g)
      (ends_run hends) he hc
    rw [← hpc, ← hm] at hnext
    revert hnext hwork
    generalize s'.pc u = p'
    intro hwork hnext
    cases p' with
    | acquire q' p' => exact ⟨q', p', rfl, hnext⟩
    | _ => cases hwork
  · rw [hp] at hj
    rw [hm]
    revert hj
    generalize s'.pc u = p'
    intro hj
    cases hj with
    | listener => exact False.elim hends
    | build | buildUnique => exact absurd (hends : none = some g) nofun
  · exact nomatch hp.symm.trans hidle

/-- An acquisition that has made a generation and failed has failed with `ShuttingDown`, after it has
used or dropped the sender of the gate. -/
theorem shuttingDown_of_made (hok : ∀ s a, ok s a → a.KeysSound)
    (hg : HadMade cfg ok u g s) (hu : s.pc u = .acquire q (.returned result))
    (hf : ∀ g, result ≠ .ok g) : result = .err .shuttingDown ∧ s.mem.start g ≠ .pending := by
  obtain ⟨v, ch, s', hv, hmakes, hok', h, hr⟩ := hg
  have hmade : ∃ q p, s'.pc u = .acquire q p ∧ p.Ends s'.mem g := by
    revert hmakes
    have hwp (p : Pc R K E) (hp : p.Makes g v.mem) : p.code.wp cfg u v.mem fun m' p' _ =>
        ∃ q r, p' = .acquire q r ∧ r.Ends m' g := by
      unfold Pc.Makes at hp
      split at hp
      · rename_i q site
        exact ⟨q, .create site (.spawnTask _), rfl, congrArg some hp.symm⟩
      · exact hp.elim
    intro hmakes
    obtain ⟨-, hends⟩ := pc_of_run h (hwp _ hmakes)
    exact hends
  have hs' := hv.tail ⟨_, hok', h⟩
  have hends : ∃ q p, s.pc u = .acquire q p ∧ p.Ends s.mem g :=
    hr.invariant_of_reach (fun s => ∃ q p, s.pc u = .acquire q p ∧ p.Ends s.mem g) hmade
      fun w a w' hw hp ha h => ends_step hok (hs'.trans hw) ha h hp
  obtain ⟨q', p, hp, hends⟩ := hends
  cases hu.symm.trans hp
  exact hends hf

/-- An acquisition that has returned stays where it is. -/
theorem returned_of_reach (hs : Reach (step cfg) ok State.new s) (hr : Reach (step cfg) ok s s')
    (hu : s.pc u = .acquire q (.returned result)) : s'.pc u = .acquire q (.returned result) := by
  refine hr.invariant_of_reach (fun s => s.pc u = .acquire q (.returned result)) hu ?_
  intro w a w' hw hp _ h
  rcases thread_cases h (fresh_of_reach (hs.trans hw)) u with hpc | ⟨_, _, _, -, he, -⟩ | ⟨hj, -⟩ |
      ⟨hidle, -⟩
  · exact hpc.trans hp
  · rw [hp] at he
    cases he
  · rw [hp] at hj
    cases hj
  · exact nomatch hp.symm.trans hidle

/-- **A failed acquisition leaves no residue**, in every run in which no key operation panics. Let an
acquisition have returned an error, or have been dropped, by `s`, and `s'` be any later state. What
it had claimed is not attached in `s'`. A generation it had made has never been registered and is in
neither table, unless the acquisition has returned `ShuttingDown` in a domain that has stopped
accepting; then the generation is not acquirable and is supervised until its supervising future
takes it out of the table. A slot that is found starting is owned by another acquisition, and one
that is found active while the domain accepts does not point to what the failed one had made. And
no step of an acquisition writes to any slot or entry but that of its own establishment. -/
theorem failed_acquisition_leaves_nothing
    (hs : Reach (step cfg) (fun _ a => a.KeysSound) State.new s)
    (hr : Reach (step cfg) (fun _ a => a.KeysSound) s s')
    (hu : s.pc u = .acquire q (.returned result)) (hf : ∀ g, result ≠ .ok g) :
    (∀ i x, HadClaimed cfg (fun _ a => a.KeysSound) u i x s →
      ¬ (s'.mem.Attached i x.slot ∧ (s'.mem.state i x.slot).generation = x.generation)) ∧
    (∀ g, HadMade cfg (fun _ a => a.KeysSound) u g s →
      s'.mem.taskId g = none ∧ (∀ e ∈ s'.mem.tasks, e.2 ≠ g) ∧
          (∀ r, ∀ e ∈ s'.mem.live r, e.2 ≠ g) ∨
        result = .err .shuttingDown ∧ s'.mem.taskId g ≠ none ∧ ¬ s'.mem.Accepting ∧
          ¬ s'.mem.Acquirable g ∧ ∃ t i id site p, s'.pc t = .supervise i g id site p ∧
            (p.removed = false → (id, g) ∈ s'.mem.tasks)) ∧
    (∀ n generation, s'.mem.Attached q.ident n → s'.mem.state q.ident n = .starting generation →
      ∃ v, v ≠ u ∧ (s'.pc v).owner? = some (q.ident, ⟨n, generation⟩)) ∧
    (s'.mem.Accepting → ∀ g, HadMade cfg (fun _ a => a.KeysSound) u g s →
      ∀ i n generation, s'.mem.state i n ≠ .active generation g) ∧
    ∀ (v w : State R K E) ch q p, Reach (step cfg) (fun _ a => a.KeysSound) State.new v →
      v.pc u = .acquire q p → step cfg v (.run u ch) = some w →
        Confined q.ident (v.pc u) v.mem w.mem := by
  have hs' := hs.trans hr
  have hgrows := grows_of_reach hr
  have hkeys : ∀ (s : State R K E) (a : Action R K E), a.KeysSound → a.KeysSound := fun _ _ => id
  have made {g : GenId} (hg : HadMade cfg (fun _ a => a.KeysSound) u g s) :
      result = .err .shuttingDown ∧ s'.mem.start g ≠ .pending ∧ ¬ s'.mem.Accepting := by
    obtain ⟨hres, hstart⟩ := shuttingDown_of_made hkeys hg hu hf
    have hex := excused_of_reach hs u
    rw [hu] at hex
    exact ⟨hres, hgrows.start g hstart, fun hacc => hex hres (hgrows.accepting hacc)⟩
  refine ⟨?_, ?_, ?_, ?_, ?_⟩
  · intro i x hx
    exact (left_of_reach hs hr (left_of_returned hkeys hx hu hf)).not_attached
  · intro g hg
    obtain ⟨hres, hstart, hacc⟩ := made hg
    obtain ⟨htab, -⟩ := known_of_reach hs'
    cases hid : s'.mem.taskId g with
    | none =>
      refine .inl ⟨rfl, fun e he heq => ?_, fun r e he heq => ?_⟩
      · exact nomatch (heq ▸ hid).symm.trans (htab.entry e he)
      · exact nomatch (heq ▸ hid).symm.trans (indexed_of_reach hs' r e he).1
    | some id =>
      refine .inr ⟨hres, nofun, hacc, fun h => hacc h.2, ?_⟩
      obtain ⟨t, ⟨q', site, p, hp, hreg⟩ | ⟨i, site, p, hp⟩⟩ := in_charge hs' hid
      · -- the creator would still hold the sender of the gate, which has been used
        have hgate : 0 < (s'.pc t).gate g := by
          rw [hp]
          exact gate_of_registered hreg
        exact absurd (guards_of_reach hs' t g hgate) hstart
      · have hl := listed_of_reach hs' t
        rw [hp] at hl
        exact ⟨t, i, id, site, p, hp, hl⟩
  · intro n generation ha hst
    obtain ⟨v, hv⟩ := owner_of_starting hkeys hs' ha hst
    refine ⟨v, ?_, hv⟩
    rintro rfl
    rw [returned_of_reach hs hr hu] at hv
    cases hv
  · exact fun hacc g hg => absurd hacc (made hg).2.2
  · intro v w ch q p hv hp hw
    have ho := (sited_of_reach hv).owns u
    have hsees := (sees_of_reach hv).2 u
    rw [hp] at ho hsees
    obtain ⟨-, hconf⟩ := pc_of_run hw (hp ▸ confined_run ho hsees)
    exact hconf

end

/-- An acquisition up to its build. -/
def buildingRun : List (Action Unit Unit Unit) :=
  .call (.acquire ⟨.getOrSpawn, ⟨(), ()⟩⟩) :: List.replicate 8 (.run 0 .go)

/-- Its build panics. -/
def failingRun : List (Action Unit Unit Unit) :=
  .run 0 .buildPanics :: List.replicate 6 (.run 0 .go)

theorem failingRun_detaches :
    ¬ (((exec (step (.single true)) ((afterwards true buildingRun).get (by decide +kernel))
        failingRun).get (by decide +kernel)).mem.Attached ⟨(), ()⟩ 0 ∧
      (((exec (step (.single true)) ((afterwards true buildingRun).get (by decide +kernel))
        failingRun).get (by decide +kernel)).mem.state ⟨(), ()⟩ 0).generation = 1) := by
  have hv := reach_afterwards Action.KeysSound (by decide +kernel)
    (by decide +kernel : (afterwards true buildingRun).isSome = true)
  have hr : Reach (step (.single true)) (fun _ a => a.KeysSound)
      ((afterwards true buildingRun).get (by decide +kernel))
      ((exec (step (.single true)) ((afterwards true buildingRun).get (by decide +kernel))
        failingRun).get (by decide +kernel)) :=
    reach_exec (P := Action.KeysSound) (fun _ _ h => h) (by decide +kernel) _
  have hu : ((exec (step (.single true)) ((afterwards true buildingRun).get (by decide +kernel))
      failingRun).get (by decide +kernel)).pc 0 = .acquire ⟨.getOrSpawn, ⟨(), ()⟩⟩
        (.returned (.err .constructionPanicked)) := by decide +kernel
  exact (failed_acquisition_leaves_nothing (hv.trans hr) .refl hu nofun).1 ⟨(), ()⟩ ⟨0, 1⟩
    ⟨_, hv, hr, by decide +kernel⟩

end Resourcery
