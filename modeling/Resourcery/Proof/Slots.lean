import Resourcery.Proof.Growth
import Resourcery.Proof.Locks

/-!
# What a lock lets a thread see

A thread that holds the shard of an identity knows the entry of the map it has read, one that
holds the lock of a slot knows the slot's state: nobody else changes them.
-/

namespace Resourcery

open Interleaving Function Transition ResourceContext

variable {R K E : Type}

/-- The slots in the map have been allocated. -/
def Memory.Bounded (m : Memory R K E) : Prop := ∀ i n, m.entries i = some n → n < m.nextSlot i

/-- The slot `n` of `i` is attached. -/
def Memory.Attached (m : Memory R K E) (i : Ident R K) (n : ℕ) : Prop := m.entries i = some n

namespace Registry

def ClaimPc.Sees (m : Memory R K E) (i : Ident R K) : ClaimPc → Prop
  | .lockSlot n | .dropState n _ => m.Attached i n
  | .listen n => m.Attached i n ∧ ∃ generation, m.state i n = .starting generation
  | .upgrade n generation g | .tryAcquire n generation g _ | .dropResource n generation g
  | .recheck n generation g | .takeover n generation g =>
    m.Attached i n ∧ m.state i n = .active generation g
  | .vacant | .insert => m.entries i = none
  | .entry | .dropEntry _ | .dropFound _ => True

def RemovePc.Sees (m : Memory R K E) (i : Ident R K) (n generation : ℕ) : RemovePc → Prop
  | .hasGeneration | .remove => m.Attached i n
  | .dropState same => m.Attached i n ∧ (same = true → (m.state i n).generation = generation)
  | .entry | .dropEntry => True

end Registry

def ResourceContext.StatusPc.Sees (m : Memory R K E) (i : Ident R K) : StatusPc → Prop
  | .lockSlot n => n < m.nextSlot i
  | .upgrade n g | .tryAcquire n g _ | .dropEntry n g =>
    n < m.nextSlot i ∧ ∃ generation, m.state i n = .active generation g
  | _ => True

/-- What the locks a thread holds at its program point let it see. -/
def Pc.Sees (m : Memory R K E) : Pc R K E → Prop
  | .acquire q (.claim p) => p.Sees m q.ident
  | .acquire q (.guard n generation _ (.remove p)) => p.Sees m q.ident n generation
  | .supervise i _ _ _ (.cleanup x _ p) => p.Sees m i x.slot x.generation
  | .discover _ i p => p.Sees m i
  | _ => True

variable {cfg : Config R K} {t : Tid} {m m' : Memory R K E} {p : Pc R K E}

theorem Pc.Sees.stable {u : Tid} (h : p.Sees m) (hb : m.Bounded) (hl : Locked cfg m u p)
    (hk : Keeps cfg u m m') (hg : Grows m m') : p.Sees m' := by
  have entry {i : Ident R K} (hi : m.shard i.ty (cfg.shardOf i) = some u) {o : Option ℕ}
      (ho : m.entries i = o) : m'.entries i = o :=
    (hk.shard i hi).2.trans ho
  have state {i : Ident R K} {n : ℕ} (hi : m.slotLock i n = some u) (hn : n < m.nextSlot i)
      {st : RegistrySlotState} (hst : m.state i n = st) : m'.state i n = st :=
    ((hk.slotLock i n hi).2 hn).trans hst
  have active {i : Ident R K} {n generation : ℕ} {g : GenId}
      (hi : m.shard i.ty (cfg.shardOf i) = some u) (hn : m.slotLock i n = some u)
      (h : m.Attached i n ∧ m.state i n = .active generation g) :
      m'.Attached i n ∧ m'.state i n = .active generation g :=
    ⟨entry hi h.1, state hn (hb i n h.1) h.2⟩
  have removing {i : Ident R K} {n generation : ℕ} {p : Registry.RemovePc}
      (hi : p.locked = true → m.shard i.ty (cfg.shardOf i) = some u)
      (hn : p.stateLocked = true → m.slotLock i n = some u) (h : p.Sees m i n generation) :
      p.Sees m' i n generation := by
    cases p
    case hasGeneration | remove => exact entry (hi rfl) h
    case dropState same =>
      exact ⟨entry (hi rfl) h.1, fun hs => by rw [state (hn rfl) (hb _ _ h.1) rfl]; exact h.2 hs⟩
    all_goals trivial
  cases_type* Pc AcquirePc GuardPc Registry.ClaimPc StatusPc SupervisePc
  case acquire.claim.lockSlot | acquire.claim.vacant | acquire.claim.insert
      | acquire.claim.dropState => exact entry hl.shard h
  case acquire.claim.listen =>
    obtain ⟨h1, generation, h2⟩ := h
    exact ⟨entry hl.shard h1, generation, state hl.slotLock (hb _ _ h1) h2⟩
  case acquire.claim.upgrade | acquire.claim.tryAcquire | acquire.claim.dropResource
      | acquire.claim.recheck | acquire.claim.takeover => exact active hl.shard hl.slotLock h
  case acquire.guard.remove p =>
    refine removing (fun e => ?_) (fun e => ?_) h
    · have := hl.shard
      simpa [Pc.shard?, e, ForSome] using this
    · have := hl.slotLock
      simpa [Pc.slot?, e, ForSome] using this
  case supervise.cleanup p =>
    refine removing (fun e => ?_) (fun e => ?_) h
    · have := hl.shard
      simpa [Pc.shard?, e, ForSome] using this
    · have := hl.slotLock
      simpa [Pc.slot?, e, ForSome] using this
  case discover.lockSlot => exact Nat.lt_of_lt_of_le h (hg.nextSlot _)
  case discover.upgrade | discover.tryAcquire | discover.dropEntry =>
    obtain ⟨h1, generation, h2⟩ := h
    exact ⟨h1.trans_le (hg.nextSlot _), generation, state hl.slotLock h1 h2⟩
  all_goals trivial

variable [DecidableEq R] [DecidableEq K]

theorem wp_bounded {α : Type} {ins : Instr R K E α} (h : m.Bounded) :
    ins.wp cfg t m fun m' _ _ => m'.Bounded := by
  cases ins
  case insertSlot i k =>
    intro j n hj
    show n < update m.nextSlot i _ j
    have hj' : update m.entries i _ j = some n := hj
    by_cases hji : j = i
    · subst hji
      rw [update_self] at hj' ⊢
      injection hj' with hj'
      omega
    · rw [update_of_ne hji] at hj' ⊢
      exact h j n hj'
  case removeEntry i k =>
    intro j n hj
    have hj' : update m.entries i none j = some n := hj
    by_cases hji : j = i
    · rw [hji, update_self] at hj'
      cases hj'
    · rw [update_of_ne hji] at hj'
      exact h j n hj'
  all_goals
    repeat' first
      | exact trivial
      | exact h
      | apply And.intro
      | intro _

theorem sees_run (hb : m.Bounded) (hp : p.Sees m) :
    p.code.wp cfg t m fun m' p' c => p'.Sees m' ∧ ForSome (Pc.Sees m') c := by
  cases p using Pc.points
  case acquire_guard_remove_entry n generation _ | supervise_cleanup_entry =>
    refine ⟨⟨trivial, trivial⟩, fun _ => ⟨fun k hk => ?_, fun _ => ⟨trivial, trivial⟩⟩⟩
    dsimp only
    split
    · rename_i he
      refine ⟨?_, trivial⟩
      cases he
      exact hk
    · exact ⟨trivial, trivial⟩
  case acquire_guard_remove_hasGeneration | supervise_cleanup_hasGeneration =>
    refine fun _ => ⟨fun generation hst => ⟨⟨hp, fun hs => ?_⟩, trivial⟩,
      fun generation g hst => ⟨⟨hp, fun hs => ?_⟩, trivial⟩⟩
    · show (m.state _ _).generation = _
      rw [hst]
      exact of_decide_eq_true hs
    · show (m.state _ _).generation = _
      rw [hst]
      exact of_decide_eq_true hs
  case acquire_guard_remove_dropState_true | supervise_cleanup_dropState_true =>
    exact ⟨hp.1, trivial⟩
  case acquire_claim_entry =>
    exact ⟨⟨trivial, trivial⟩, fun _ => ⟨fun n hn => ⟨hn, trivial⟩, fun hn => ⟨hn, trivial⟩⟩⟩
  case acquire_claim_lockSlot =>
    exact fun _ => ⟨fun generation hst => ⟨⟨hp, generation, hst⟩, trivial⟩,
      fun generation g hst => ⟨⟨hp, hst⟩, trivial⟩⟩
  case acquire_claim_listen => exact ⟨hp.1, trivial⟩
  case acquire_claim_recheck => exact ⟨fun _ => ⟨hp, trivial⟩, fun _ => ⟨hp.1, trivial⟩⟩
  case acquire_claim_takeover => exact ⟨hp.1, trivial⟩
  case acquire_claim_tryAcquire_activeAgain =>
    exact ⟨fun _ => ⟨hp, trivial⟩, fun _ => ⟨hp.1, trivial⟩, fun _ => ⟨hp, trivial⟩,
      fun _ => ⟨hp, trivial⟩⟩
  case discover_slot =>
    exact ⟨⟨trivial, trivial⟩, fun _ => ⟨fun n hn => ⟨hb _ n hn, trivial⟩,
      fun _ => ⟨trivial, trivial⟩⟩⟩
  case discover_lockSlot =>
    exact fun _ => ⟨fun _ _ => ⟨trivial, trivial⟩,
      fun generation g hst => ⟨⟨hp, generation, hst⟩, trivial⟩⟩
  all_goals
    repeat' first
      | exact trivial
      | exact hp
      | apply And.intro
      | intro _

theorem sees_of_reach {ok : State R K E → Action R K E → Prop} {s : State R K E}
    (hr : Reach (step cfg) ok State.new s) : s.mem.Bounded ∧ ∀ u, (s.pc u).Sees s.mem := by
  refine hr.invariant_of_reach (fun s => s.mem.Bounded ∧ ∀ u, (s.pc u).Sees s.mem) ?_ ?_
  · exact ⟨fun _ _ h => (nomatch h), fun _ => trivial⟩
  · intro s a s' hs ⟨hm, ih⟩ _ h
    have hl := locked_of_reach hs
    refine inv_step Memory.Bounded (fun m _ p => p.Sees m) h hm ih
      (fun _ u hu => (ih u).stable hm (hl u) (keeps_step h hl hu) (grows_step h)) ?_ ?_ ?_ ?_ ?_
    · exact fun t p _ _ _ hp => ((wp_bounded hm).and (sees_run hm hp)).mono
        fun _ _ _ h => ⟨⟨h.1, h.2.1⟩, h.2.2⟩
    · rintro t p p' hj - - hp
      cases hj <;> trivial
    · rintro c m p rfl hc
      cases hc <;> exact ⟨hm, trivial⟩
    · exact fun _ _ _ => hm
    · rintro m c hh
      cases hh <;> exact ⟨hm, trivial⟩

end Resourcery
