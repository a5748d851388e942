import Resourcery.Proof.Cleanup
import Resourcery.Proof.Reentry

/-!
# Waiters

A `get_or_spawn` that finds an identity starting waits for the next notification of its slot. As
long as no key operation panics, somebody owes that notification: the acquisition that constructs
the generation, which notifies however it ends.
-/

namespace Resourcery

open Interleaving Function Transition ResourceContext

variable {R K E : Type}

/-! ## Who owes a notification, and who waits for it -/

namespace ResourceContext

/-- The slot an acquisition has yet to notify: from the grant of the claim on. -/
def AcquirePc.notifies? : AcquirePc → Option ℕ
  | .claim p => p.owner?.map Site.slot
  | .cloneKey n _ | .cloneCleanupKey n _ => some n
  | .create site _ => site.map Site.slot
  | .settle _ _ _ .start => none
  | .settle n _ _ _ | .guard n _ _ _ => some n
  | _ => none

/-- The slot an acquisition listens to, with the number of notifications it has seen. -/
def AcquirePc.listens? : AcquirePc → Option (ℕ × ℕ)
  | .claim (.dropState _ (.wait n seen)) | .claim (.dropEntry (.wait n seen))
  | .listener n seen => some (n, seen)
  | _ => none

end ResourceContext

namespace Pc

def notifies? : Pc R K E → Option (Ident R K × ℕ)
  | .acquire q p => p.notifies?.map (q.ident, ·)
  | _ => none

def listens? : Pc R K E → Option (Ident R K × ℕ × ℕ)
  | .acquire q p => p.listens?.map (q.ident, ·)
  | _ => none

end Pc

/-- Who has seen `seen` notifications of the slot `n` of `i` has been notified since, or somebody
owes the next one. -/
def Served (s : State R K E) (i : Ident R K) (n seen : ℕ) : Prop :=
  seen ≤ s.mem.changed i n ∧
    (seen = s.mem.changed i n → ∃ t, (s.pc t).notifies? = some (i, n))

variable {cfg : Config R K} {t u : Tid} {m m' : Memory R K E} {p p' : Pc R K E} {i : Ident R K}
  {n seen : ℕ}

/-- From `p` a thread goes on at `p'`: a slot it listens to is the one it listened to, or one whose
listener it has just created. -/
def Listens (m : Memory R K E) (p p' : Pc R K E) : Prop :=
  p'.listens? = none ∨ p'.listens? = p.listens? ∨
    ∃ q n, p = .acquire q (.claim (.listen n)) ∧
      p'.listens? = some (q.ident, n, m.changed q.ident n)

theorem Listens.free (h : p'.listens? = none) : Listens m p p' := .inl h

theorem Listens.of_eq (h : p'.listens? = p.listens?) : Listens m p p' := .inr (.inl h)

/-- From `p` a thread goes on at `p'`: it still owes the notification of the slot `n` of `i`, or has
made it, unless a key operation has panicked. -/
def Notifies (i : Ident R K) (n : ℕ) (m : Memory R K E) (p : Pc R K E) (m' : Memory R K E)
    (p' : Pc R K E) : Prop :=
  p.panic? = some p' ∨ p'.notifies? = some (i, n) ∨ m.changed i n < m'.changed i n

theorem Notifies.panic (h : p.panic? = some p') : Notifies i n m p m' p' := .inl h

theorem Notifies.of_eq (h : p'.notifies? = some (i, n)) : Notifies i n m p m' p' := .inr (.inl h)

/-- The owner of a slot owes a notification. -/
theorem notifies_of_owner {x : Site} (h : p.owner? = some (i, x)) :
    p.notifies? = some (i, x.slot) := by
  cases p with
  | acquire q p =>
    cases p with
    | settle n generation g p => cases p <;> cases h <;> rfl
    | guard n generation result p =>
      cases p with
      | remove p => cases p <;> cases h <;> rfl
      | notify => cases h
    | claim p =>
      obtain ⟨y, hy, he⟩ := Option.map_eq_some_iff.mp h
      cases he
      exact congrArg (Option.map (q.ident, ·)) (congrArg (Option.map Site.slot) hy)
    | create site p =>
      cases site <;> cases h
      rfl
    | cloneKey | cloneCleanupKey =>
      cases h
      rfl
    | _ => cases h
  | _ => cases h

/-- Who owes a notification awaits none. -/
theorem listens_of_notifies {x : Ident R K × ℕ} (h : p.notifies? = some x) : p.listens? = none := by
  cases p with
  | acquire q p =>
    cases p with
    | claim p =>
      cases p with
      | dropState n claim | dropEntry claim => cases claim <;> first | rfl | cases h
      | _ => rfl
    | listener => cases h
    | _ => rfl
  | _ => cases h

/-- No thread comes to a listener by dropping a reference. -/
theorem afterRelease_ne_listener {q : Request R K} :
    p.code.afterRelease? ≠ some (.acquire q (.listener n seen)) := by
  cases p using Pc.points
  all_goals exact fun h => by cases h

section

variable [DecidableEq R] [DecidableEq K]

theorem notifies_run (h : p.notifies? = some (i, n)) :
    p.code.wp cfg t m fun m' p' _ => Notifies i n m p m' p' := by
  cases p with
  | acquire q p =>
    cases q, p using AcquirePc.points
    case' acquire.claim_dropState claim => cases claim
    case acquire.guard_remove_entry =>
      refine ⟨.panic rfl, fun _ => ⟨fun _ _ => ?_, fun _ => .of_eq h⟩⟩
      dsimp only
      split <;> exact .of_eq h
    case acquire.settle_notify | acquire.guard_notify =>
      cases h
      refine .inr (.inr ?_)
      show m.changed q.ident _ < update₂ m.changed q.ident _ _ q.ident _
      rw [update₂_self]
      exact Nat.lt_succ_self _
    all_goals first
      | cases h; done
      | repeat' first
        | exact .of_eq h
        | exact .panic rfl
        | apply And.intro
        | intro _
  | _ => cases h

theorem listens_run {q : Request R K} {p : AcquirePc} :
    (Pc.acquire q p : Pc R K E).code.wp cfg t m fun _ p' _ => Listens m (.acquire q p) p' := by
  cases q, p using AcquirePc.points
  case' claim_dropState claim => cases claim
  case claim_listen => exact .inr (.inr ⟨_, _, rfl, rfl⟩)
  case guard_remove_entry =>
    refine ⟨.free rfl, fun _ => ⟨fun _ _ => ?_, fun _ => .free rfl⟩⟩
    dsimp only
    split <;> exact .free rfl
  all_goals
    repeat' first
      | exact trivial
      | exact .free rfl
      | exact .of_eq rfl
      | apply And.intro
      | intro _

variable {s s' : State R K E} {a : Action R K E} {ok : State R K E → Action R K E → Prop}

/-- A listener is created by a claim that finds the slot starting. -/
theorem listens_step (hf : Pool.Fresh .idle s) (h : step cfg s a = some s')
    (hl : (s'.pc u).listens? = some (i, n, seen)) : (s.pc u).listens? = some (i, n, seen) ∨
      ∃ q, s.pc u = .acquire q (.claim (.listen n)) ∧ q.ident = i ∧
        s.mem.changed i n = seen := by
  rcases thread_cases h hf u with hpc | ⟨ch, mv, -, -, he, -, hp⟩ | ⟨hj, -⟩ | ⟨-, hi⟩
  · exact .inl (hpc ▸ hl)
  · have hwork := ((wp_work (s.pc u)).sound he).1
    rw [← hp] at hwork
    generalize hq : s.pc u = p at he hwork
    generalize hq' : s'.pc u = p' at hl hp hwork
    cases p'
    case acquire q p' =>
      obtain ⟨p, rfl⟩ : ∃ p₀, p = .acquire q p₀ := by
        cases p <;> cases hwork
        exact ⟨_, rfl⟩
      have hlis := listens_run.sound he
      rw [← hp] at hlis
      rcases hlis with h0 | h0 | ⟨q', n', h1, h0⟩
      · exact nomatch h0.symm.trans hl
      · exact .inl (h0.symm.trans hl)
      · cases h1
        have := h0.symm.trans hl
        cases this
        exact .inr ⟨q, rfl, rfl, rfl⟩
    all_goals cases hl
  · generalize s.pc u = p at hj
    generalize s'.pc u = p' at hj hl
    cases hj <;> cases hl
  · generalize s'.pc u = p' at hi hl
    cases p'
    case acquire q p =>
      rcases hi with rfl | rfl <;> cases hl
    all_goals cases hl

section

variable (hok : ∀ s a, ok s a → a.KeysSound)

include hok

/-- Whoever owes a notification still does after a step, or has made it. -/
theorem notifies_step (hs : Reach (step cfg) ok State.new s) (ha : ok s a)
    (h : step cfg s a = some s') (ht : (s.pc t).notifies? = some (i, n)) :
    (s'.pc t).notifies? = some (i, n) ∨ s.mem.changed i n < s'.mem.changed i n := by
  rcases thread_cases h (fresh_of_reach hs) t with hpc | ⟨ch, mv, rfl, -, he, hm, hp⟩ | ⟨hj, -⟩ |
    ⟨hidle, -⟩
  · exact .inl (hpc ▸ ht)
  · have hc : ch ≠ .keyPanics := by
      rintro rfl
      exact nomatch hok s _ ha
    rw [hp, hm]
    exact ((notifies_run ht).sound he).resolve_left (not_panic he hc)
  · left
    revert hj ht
    generalize s.pc t = p
    generalize s'.pc t = p'
    intro ht hj
    cases hj <;> exact ht
  · rw [hidle] at ht
    cases ht

theorem notifies_of_reach (hs : Reach (step cfg) ok State.new s) (hr : Reach (step cfg) ok s s')
    (ht : (s.pc t).notifies? = some (i, n)) :
    (s'.pc t).notifies? = some (i, n) ∨ s.mem.changed i n < s'.mem.changed i n := by
  induction hr with
  | refl => exact .inl ht
  | @tail v s' hv hstep ih =>
    obtain ⟨a, ha, h⟩ := hstep
    have hgrow := (grows_step h).changed i n
    rcases ih with ih | ih
    · have hle := (grows_of_reach hv).changed i n
      exact (notifies_step hok (hs.trans hv) ha h ih).imp_right (Nat.lt_of_le_of_lt hle)
    · exact .inr (Nat.lt_of_lt_of_le ih hgrow)

theorem served_of_reach (hs : Reach (step cfg) ok State.new s) (u : Tid)
    (hl : (s.pc u).listens? = some (i, n, seen)) : Served s i n seen := by
  revert u i n seen
  refine hs.invariant_of_reach (fun s => ∀ {i n seen} u,
    (s.pc u).listens? = some (i, n, seen) → Served s i n seen) (fun _ h => nomatch h) ?_
  intro s a s' hs ih ha h i n seen u hl
  have hserved : Served s i n seen := by
    rcases listens_step (fresh_of_reach hs) h hl with hl | ⟨q, hp, rfl, rfl⟩
    · exact ih u hl
    · have hsees := (sees_of_reach hs).2 u
      rw [hp] at hsees
      obtain ⟨hatt, generation, hst⟩ := hsees
      obtain ⟨t, ht⟩ := owner_of_starting hok hs hatt hst
      exact ⟨Nat.le_refl _, fun _ => ⟨t, notifies_of_owner ht⟩⟩
  have hgrow := (grows_step h).changed i n
  refine ⟨Nat.le_trans hserved.1 hgrow, fun he => ?_⟩
  -- no notification in this step: the one who owed it still does
  obtain ⟨t, ht⟩ := hserved.2 (Nat.le_antisymm hserved.1 (he ▸ hgrow))
  rcases notifies_step hok hs ha h ht with ht' | hlt
  · exact ⟨t, ht'⟩
  · exact absurd (Nat.lt_of_le_of_lt hserved.1 hlt) (he ▸ Nat.lt_irrefl _)

end

/-! ## Waking up -/

/-- A destructor that is awaited has ended, or has been started by the last step of the thread. -/
theorem awaited_of_reach (hs : Reach (step cfg) ok State.new s) (u c : Tid) :
    (s.thread u).awaits = some c →
      (s.pc c).destroyed = true ∨ ∃ p : Pc R K E, p.code.afterRelease? = some (s.pc u) := by
  revert u c
  refine hs.invariant_of_reach (fun s => ∀ u c, (s.thread u).awaits = some c →
    (s.pc c).destroyed = true ∨ ∃ p : Pc R K E, p.code.afterRelease? = some (s.pc u))
    (fun _ _ h => nomatch h) ?_
  intro s a s' hs ih _ h u c hc
  have hdone (hd : (s.pc c).destroyed = true) := destroyed_step h (fresh_of_reach hs) hd
  rcases awaits_cases h hc with ⟨hold, hpc | hd⟩ | ⟨g, destructor, hcode, -⟩
  · rw [hpc]
    exact (ih u c hold).imp_left hdone
  · exact .inl (hdone hd)
  · exact .inr ⟨s.pc u, by rw [hcode]; rfl⟩

/-- A listener that has been notified goes on to the next claim. -/
theorem wakes {q : Request R K} (hs : Reach (step cfg) ok State.new s)
    (hu : s.pc u = .acquire q (.listener n seen)) (hlt : seen < s.mem.changed q.ident n) :
    ∃ s', step cfg s (.run u .go) = some s' ∧ s'.pc u = .acquire q (.claim .entry) := by
  have hsize : u < s.size := lt_size_of_ne_idle (fresh_of_reach hs) (hu ▸ fun h => by cases h)
  have hready : s.Ready u := by
    refine ⟨hsize, fun c hc => (awaited_of_reach hs u c hc).resolve_right ?_⟩
    rintro ⟨p, hp⟩
    exact afterRelease_ne_listener (hu ▸ hp)
  have he : execute cfg u .go s.mem (s.pc u).code =
      some { mem := s.mem, pc := .acquire q (.claim .entry) } := by
    rw [hu]
    exact if_pos hlt
  have hpc := Pool.advance_pc_self hsize
    { mem := s.mem, pc := (.acquire q (.claim .entry) : Pc R K E) }
  refine ⟨_, ?_, hpc⟩
  show (if s.Ready u then _ else _) = _
  rw [if_pos hready, he]
  rfl

/-- **No waiter is stranded**, in every run in which no key operation panics. A `get_or_spawn` that
awaits the listener of a slot has been notified, and its next poll claims again; or another
acquisition, which awaits no listener, owes the notification, and in every later state still owes it
unless the slot has been notified. -/
theorem waiters_are_owed_notification {q : Request R K}
    (hs : Reach (step cfg) (fun _ a => a.KeysSound) State.new s)
    (hu : s.pc u = .acquire q (.listener n seen)) :
    (seen < s.mem.changed q.ident n ∧
      ∃ s', step cfg s (.run u .go) = some s' ∧ s'.pc u = .acquire q (.claim .entry)) ∨
    ∃ t, t ≠ u ∧ (s.pc t).notifies? = some (q.ident, n) ∧ (s.pc t).listens? = none ∧
      ∀ s', Reach (step cfg) (fun _ a => a.KeysSound) s s' →
        (s'.pc t).notifies? = some (q.ident, n) ∨ seen < s'.mem.changed q.ident n := by
  have hserved : Served s q.ident n seen := served_of_reach (fun _ _ h => h) hs u (hu ▸ rfl)
  rcases Nat.eq_or_lt_of_le hserved.1 with heq | hlt
  · right
    obtain ⟨t, ht⟩ := hserved.2 heq
    refine ⟨t, ?_, ht, listens_of_notifies ht, fun s' hr => ?_⟩
    · rintro rfl
      rw [hu] at ht
      cases ht
    · rw [heq]
      exact notifies_of_reach (fun _ _ h => h) hs hr ht
  · exact .inl ⟨hlt, wakes hs hu hlt⟩

end

/-- A `get_or_spawn` that awaits the listener of the slot another one builds for. -/
def waitingRun : List (Action Unit Unit Unit) :=
  .call (.acquire ⟨.getOrSpawn, ⟨(), ()⟩⟩) :: List.replicate 8 (.run 0 .go) ++
    .call (.acquire ⟨.getOrSpawn, ⟨(), ()⟩⟩) :: List.replicate 6 (.run 1 .go)

theorem waitingRun_notifies :
    ∃ t, t ≠ 1 ∧ (((afterwards true waitingRun).get (by decide +kernel)).pc t).notifies? =
      some (⟨(), ()⟩, 0) := by
  have hs : Reach (step (.single true)) (fun _ a => a.KeysSound) State.new
      ((afterwards true waitingRun).get (by decide +kernel)) :=
    reach_afterwards _ (by decide +kernel) (by decide +kernel)
  have hu : ((afterwards true waitingRun).get (by decide +kernel)).pc 1 =
      .acquire ⟨.getOrSpawn, ⟨(), ()⟩⟩ (.listener 0 0) := by decide +kernel
  rcases waiters_are_owed_notification hs hu with ⟨hlt, -⟩ | ⟨t, hne, ht, -⟩
  · exact absurd hlt (by decide +kernel)
  · exact ⟨t, hne, ht⟩

end Resourcery
