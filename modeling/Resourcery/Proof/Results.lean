import Resourcery.Logic.Acquisitions
import Resourcery.Proof.Lookup

/-!
# What an acquisition returns

The result of an acquisition tells what happened in it: `ShuttingDown` that the domain has stopped
accepting, `ConstructionPanicked` that its own build has panicked, `Occupied` what its claim has
found, and a reference of a create-only `spawn` what it has built. A second panic, of the build's
payload when it is dropped or of the key in the drop of the construction guard, escapes from the
acquisition, which then returns nothing.
-/

namespace Resourcery

open Interleaving Function Transition ResourceContext

variable {R K E : Type}

/-! ## Excuses -/

/-- An acquisition that is on its way to `ShuttingDown` has found that the domain does not accept. -/
def ResourceContext.AcquirePc.Excused (m : Memory R K E) : AcquirePc → Prop
  | .claim (.dropState _ c) | .claim (.dropEntry c) => c = .shuttingDown → ¬ m.Accepting
  | .settle _ _ _ .lateStart | .settle _ _ _ .dropResource => ¬ m.Accepting
  | .guard _ _ result _ | .returned result => result = .err .shuttingDown → ¬ m.Accepting
  | _ => True

/-! ## Events -/

namespace Pc

/-- The claim locks its slot, which is attached, and finds its identity starting. -/
def FindsStarting (m : Memory R K E) : Pc R K E → Prop
  | .acquire q (.claim (.lockSlot _)) => m.lookup q.ident = .starting
  | _ => False

/-- The claim acquires the generation its identity is active with: `try_acquire` succeeds with its
last load. -/
def FindsActive (m : Memory R K E) : Pc R K E → Prop
  | .acquire q (.claim (.tryAcquire n generation g .activeAgain)) =>
    m.Attached q.ident n ∧ m.state q.ident n = .active generation g ∧ m.Live g
  | _ => False

/-- The acquisition is about to poll its build. -/
def Builds : Pc R K E → Prop
  | .acquire _ (.create _ .build) => True
  | _ => False

/-- The armed construction guard of the acquisition is about to look for its key. -/
def Cleans : Pc R K E → Prop
  | .acquire _ (.guard _ _ _ (.remove .entry)) => True
  | _ => False

end Pc

/-- The build of the acquisition of thread `u` panics. -/
def Panics (u : Tid) (e : Event R K E) : Prop :=
  (e.2 = .run u .buildPanics ∨ e.2 = .run u .payloadPanics) ∧ (e.1.pc u).Builds

/-- A panic escapes from the acquisition of thread `u`: of the payload of its build, or of the key in
the drop of its construction guard. -/
def Escapes (u : Tid) (e : Event R K E) : Prop :=
  e.2 = .run u .payloadPanics ∧ (e.1.pc u).Builds ∨ e.2 = .run u .keyPanics ∧ (e.1.pc u).Cleans

/-! ## What has happened at a program point -/

/-- What has happened in an acquisition: a create-only claim has found its identity starting, a
claim has acquired an active generation, its build has panicked, a panic has escaped from it, it has
made a generation. -/
structure Story where
  starting : Prop
  active : Prop
  panicked : Prop
  escaped : Prop
  made : GenId → Prop

/-- No panic has happened. -/
def Story.Calm (σ : Story) : Prop := ¬ σ.panicked ∧ ¬ σ.escaped

/-- Nothing that decides the result has happened. -/
def Story.Open (σ : Story) : Prop := ¬ σ.starting ∧ ¬ σ.active ∧ σ.Calm

/-- The claim has found its identity starting, as far as a create-only one looks for it. -/
def Story.Starting (σ : Story) (op : AcquireOp) : Prop :=
  (op ≠ .getOrSpawn → σ.starting) ∧ ¬ σ.active ∧ σ.Calm

/-- The claim has acquired an active generation. -/
def Story.Active (σ : Story) : Prop := ¬ σ.starting ∧ σ.active ∧ σ.Calm

/-- What a result tells of panics. -/
structure Acquired.Blames (result : Acquired) (σ : Story) : Prop where
  panicked : result = .err .constructionPanicked ↔ σ.panicked ∧ ¬ σ.escaped
  escaped : σ.escaped → result = .panicked

/-- What the result of an acquisition tells. -/
structure Acquired.Tells (result : Acquired) (op : AcquireOp) (σ : Story) : Prop where
  blames : result.Blames σ
  occupied : result = .err .occupied ↔ σ.starting ∨ op = .spawn ∧ σ.active
  made : ∀ g, result = .ok g → op = .spawn → σ.made g

/-- The result an armed construction guard is dropped with. -/
structure Acquired.Guarded (result : Acquired) (σ : Story) : Prop where
  blames : result.Blames σ
  free : result ≠ .err .occupied
  failed : ∀ g, result ≠ .ok g

/-- What has happened in an acquisition that is at this point. -/
def ResourceContext.AcquirePc.Told (op : AcquireOp) (σ : Story) : AcquirePc → Prop
  | .claim (.listen _) | .claim (.dropState _ (.wait ..)) | .claim (.dropEntry (.wait ..)) =>
    σ.Starting op
  | .claim (.dropState _ (.active _)) | .claim (.dropEntry (.active _)) => σ.Active
  | .claim (.dropFound _) => op = .spawn ∧ σ.Active
  | .claim (.dropState _ .occupied) | .claim (.dropEntry .occupied) => False
  | .create _ p => σ.Open ∧ ForSome σ.made p.gen?
  | .settle _ _ g _ | .start g => σ.Open ∧ σ.made g
  | .guard _ _ result _ => (¬ σ.starting ∧ ¬ σ.active) ∧ result.Guarded σ
  | .deliver g => (¬ σ.starting ∧ σ.Calm) ∧ (op = .spawn → ¬ σ.active ∧ σ.made g)
  | .returned result => result.Tells op σ
  | _ => σ.Open

/-- What has happened in the acquisition of thread `u`. -/
def story (u : Tid) (es : List (Event R K E)) (op : AcquireOp) : Story where
  starting := op ≠ .getOrSpawn ∧ Happened (Takes u Pc.FindsStarting) es
  active := Happened (Takes u Pc.FindsActive) es
  panicked := Happened (Panics u) es
  escaped := Happened (Escapes u) es
  made g := Happened (Takes u (Pc.Makes g)) es

/-- A step at this point can decide the result. -/
def ResourceContext.AcquirePc.decides : AcquirePc → Bool
  | .claim (.lockSlot _) | .claim (.tryAcquire _ _ _ .activeAgain) | .create _ .newEntry
  | .create _ .build | .guard _ _ _ (.remove .entry) => true
  | _ => false

variable {cfg : Config R K} {t u : Tid} {ch : Choice} {m m' : Memory R K E} {q : Request R K}
  {p : AcquirePc} {g : GenId} {σ : Story} {es : List (Event R K E)}

theorem Acquired.Blames.of_calm {result : Acquired} (h : σ.Calm)
    (hr : result ≠ .err .constructionPanicked) : result.Blames σ :=
  ⟨⟨fun e => absurd e hr, fun e => absurd e.1 h.1⟩, fun e => absurd e h.2⟩

/-- A panic that escapes is all there is to tell. -/
theorem Acquired.Blames.of_escaped (h : σ.escaped) : Acquired.panicked.Blames σ :=
  ⟨⟨nofun, fun e => absurd h e.2⟩, fun _ => rfl⟩

theorem Acquired.Tells.of_guarded {result : Acquired} {op : AcquireOp} (hs : ¬ σ.starting)
    (ha : ¬ σ.active) (h : result.Guarded σ) : result.Tells op σ :=
  ⟨h.blames, ⟨fun e => absurd e h.free, fun e => (e.elim hs fun e => ha e.2).elim⟩,
    fun g e => absurd e (h.failed g)⟩

theorem Acquired.Guarded.of_open {result : Acquired} (h : σ.Open)
    (h1 : result ≠ .err .constructionPanicked) (h2 : result ≠ .err .occupied)
    (h3 : ∀ g, result ≠ .ok g) : result.Guarded σ :=
  ⟨.of_calm h.2.2 h1, h2, h3⟩

theorem Acquired.Tells.of_open {result : Acquired} {op : AcquireOp} (h : σ.Open)
    (h1 : result ≠ .err .constructionPanicked) (h2 : result ≠ .err .occupied)
    (h3 : ∀ g, result ≠ .ok g) : result.Tells op σ :=
  .of_guarded h.1 h.2.1 (.of_open h h1 h2 h3)

theorem Acquired.Guarded.of_escaped (h : σ.escaped) : Acquired.panicked.Guarded σ :=
  ⟨.of_escaped h, nofun, nofun⟩

theorem Acquired.Tells.of_occupied {op : AcquireOp} (h : σ.starting ∨ op = .spawn ∧ σ.active)
    (hp : σ.Calm) : (Acquired.err .occupied).Tells op σ :=
  ⟨.of_calm hp nofun, ⟨fun _ => h, fun _ => rfl⟩, nofun⟩

theorem Acquired.Tells.of_ok {op : AcquireOp} (hs : ¬ σ.starting) (hp : σ.Calm)
    (h : op = .spawn → ¬ σ.active ∧ σ.made g) : (Acquired.ok g).Tells op σ := by
  refine ⟨.of_calm hp nofun, ⟨nofun, fun e => (e.elim hs fun e => (h e.1).1 e.2).elim⟩, ?_⟩
  rintro _ ⟨⟩ he
  exact (h he).2

theorem ResourceContext.AcquirePc.Excused.mono (h : p.Excused m) (hg : Grows m m') :
    p.Excused m' := by
  unfold AcquirePc.Excused at *
  split <;> simp only at h
  case h_3 | h_4 => exact fun ha => h (hg.accepting ha)
  case h_7 => trivial
  all_goals exact fun e ha => h e (hg.accepting ha)

variable [DecidableEq R] [DecidableEq K]

/-! ## Steps -/

theorem excused_run (hp : p.Excused m) (hs : (Pc.acquire q p : Pc R K E).Starts m) :
    (Pc.acquire q p : Pc R K E).code.wp cfg t m fun m' p' _ =>
      p'.OfAcquire fun _ p => p.Excused m' := by
  have claim {c : Registry.RegistryClaim} (h : c ≠ .shuttingDown) :
      c = .shuttingDown → ¬ m.Accepting := fun e => absurd e h
  have result {r : Acquired} (h : r ≠ .err .shuttingDown) :
      r = .err .shuttingDown → ¬ m.Accepting := fun e => absurd e h
  cases q, p using AcquirePc.points
  case accepting => exact ⟨fun _ => trivial, fun hn _ => hn⟩
  case claim_vacant | claim_recheck => exact ⟨fun _ => trivial, fun hn _ => hn⟩
  case create_accepting_none | create_accepting_some => exact ⟨fun _ => trivial, fun hn _ => hn⟩
  case create_dropSender_none | create_dropSender_some => exact fun _ => hs
  case claim_dropEntry_spawn_shuttingDown | claim_dropEntry_getOrSpawn_shuttingDown
      | claim_dropEntry_tryGetOrSpawn_shuttingDown => exact fun _ => hp rfl
  case settle_accepting => exact ⟨fun _ => trivial, fun hn => hn⟩
  case settle_dropResource => exact ⟨fun _ _ => hp, fun _ _ => hp⟩
  case guard_remove_entry =>
    refine ⟨result (fun h => by cases h), fun _ => ⟨fun _ _ => ?_, fun _ => hp⟩⟩
    dsimp only
    split <;> exact hp
  all_goals
    repeat' first
      | exact trivial
      | exact hp
      | exact claim fun h => by cases h
      | exact result fun h => by cases h
      | apply And.intro
      | intro _

theorem excused_of_reach {ok : State R K E → Action R K E → Prop} {s : State R K E}
    (hs : Reach (step cfg) ok State.new s) (u : Tid) :
    (s.pc u).OfAcquire fun _ p => p.Excused s.mem := by
  revert u
  refine hs.invariant_of_reach (fun s => ∀ u, (s.pc u).OfAcquire fun _ p => p.Excused s.mem)
    (fun _ => trivial) ?_
  intro s a s' hs ih _ h
  refine forall_acquire_step (fun m _ _ p => p.Excused m) h ih (fun u q p _ hp => ?_) ?_ ?_ ?_
  · have hx := ih u
    rw [hp] at hx
    exact hx.mono (grows_step h)
  · intro t q p _ hp hx
    exact excused_run hx (hp ▸ starts_of_reach hs t)
  · rintro t q p p' - - hj -
    cases hj <;> exact nofun
  · exact fun q _ => ⟨trivial, trivial⟩

/-! ## What has happened -/

/-- A step that decides nothing goes on with the same story. -/
theorem told_run {σ : AcquireOp → Story} (hσ : ¬ (σ .getOrSpawn).starting)
    (hd : p.decides = false) (hp : p.Told q.op (σ q.op)) :
    (Pc.acquire q p : Pc R K E).code.wp cfg t m fun _ p' _ =>
      p'.OfAcquire fun q p => p.Told q.op (σ q.op) := by
  cases q, p using AcquirePc.points
  case' claim_dropState claim => cases claim
  case claim_lockSlot | create_newEntry | create_build_none | create_build_some
      | claim_tryAcquire_activeAgain | guard_remove_entry => cases hd
  case claim_entry =>
    exact ⟨.of_open hp nofun nofun nofun, fun _ => ⟨fun _ _ => hp, fun _ => hp⟩⟩
  case claim_dropEntry_spawn_active => exact ⟨rfl, hp⟩
  case claim_dropEntry_getOrSpawn_active | claim_dropEntry_tryGetOrSpawn_active =>
    exact ⟨⟨hp.1, hp.2.2⟩, nofun⟩
  case claim_dropEntry_spawn_wait | claim_dropEntry_tryGetOrSpawn_wait =>
    exact .of_occupied (.inl (hp.1 nofun)) hp.2.2
  case claim_dropEntry_getOrSpawn_wait =>
    exact ⟨hσ, hp.2⟩
  case claim_dropEntry_spawn_occupied | claim_dropEntry_getOrSpawn_occupied
      | claim_dropEntry_tryGetOrSpawn_occupied => exact hp.elim
  case claim_dropFound_spawn =>
    exact ⟨fun _ => .of_occupied (.inr ⟨rfl, hp.2.2.1⟩) hp.2.2.2,
      fun _ => .of_occupied (.inr ⟨rfl, hp.2.2.1⟩) hp.2.2.2⟩
  case claim_dropFound_getOrSpawn | claim_dropFound_tryGetOrSpawn => cases hp.1
  case cloneCleanupKey =>
    exact ⟨⟨⟨hp.1, hp.2.1⟩, .of_open hp nofun nofun nofun⟩, hp, trivial⟩
  case create_accepting_none =>
    exact ⟨fun _ => ⟨hp.1, trivial⟩, fun _ => .of_open hp.1 nofun nofun nofun⟩
  case create_accepting_some =>
    exact ⟨fun _ => ⟨hp.1, trivial⟩,
      fun _ => ⟨⟨hp.1.1, hp.1.2.1⟩, .of_open hp.1 nofun nofun nofun⟩⟩
  case create_dropSender_none => exact .of_open hp.1 nofun nofun nofun
  case create_dropSender_some =>
    exact ⟨⟨hp.1.1, hp.1.2.1⟩, .of_open hp.1 nofun nofun nofun⟩
  case settle_start | start => exact ⟨⟨hp.1.1, hp.1.2.2⟩, fun _ => ⟨hp.1.2.1, hp.2⟩⟩
  case settle_dropResource =>
    exact ⟨fun _ => ⟨⟨hp.1.1, hp.1.2.1⟩, .of_open hp.1 nofun nofun nofun⟩,
      fun _ => ⟨⟨hp.1.1, hp.1.2.1⟩, .of_open hp.1 nofun nofun nofun⟩⟩
  case guard_notify => exact .of_guarded hp.1.1 hp.1.2 hp.2
  case deliver => exact .of_ok hp.1.1 hp.1.2 hp.2
  all_goals
    repeat' first
      | exact trivial
      | exact hp
      | exact .of_open hp nofun nofun nofun
      | apply And.intro
      | intro _

/-- How a step of the acquisition at `p` goes on with its story. -/
def Story.next (m : Memory R K E) (p : Pc R K E) (ch : Choice) (σ : AcquireOp → Story)
    (op : AcquireOp) : Story where
  starting := op ≠ .getOrSpawn ∧ p.FindsStarting m ∨ (σ op).starting
  active := p.FindsActive m ∨ (σ op).active
  panicked := (ch = .buildPanics ∨ ch = .payloadPanics) ∧ p.Builds ∨ (σ op).panicked
  escaped := (ch = .payloadPanics ∧ p.Builds ∨ ch = .keyPanics ∧ p.Cleans) ∨ (σ op).escaped
  made g := p.Makes g m ∨ (σ op).made g

variable {s s' : State R K E} {a : Action R K E}

omit [DecidableEq R] [DecidableEq K] in
theorem story_run : story t ((s, .run t ch) :: es) = Story.next s.mem (s.pc t) ch (story t es) := by
  funext op
  simp only [story, Story.next, happened_cons, takes_run, Panics, Escapes, and_or_left,
    Action.run.injEq, true_and]

omit [DecidableEq R] [DecidableEq K] in
/-- Other actions do not belong to the story of an acquisition. -/
theorem story_other (ha : ∀ ch, a ≠ .run u ch) : story u ((s, a) :: es) = story u es := by
  have takes (P : Memory R K E → Pc R K E → Prop) : ¬ Takes u P (s, a) := not_takes ha
  have panics : ¬ Panics u (s, a) := fun h => h.1.elim (ha _) (ha _)
  have escapes : ¬ Escapes u (s, a) := fun h => h.elim (ha _ ·.1) (ha _ ·.1)
  funext op
  simp only [story, happened_cons, takes, panics, escapes, false_or]

omit [DecidableEq R] [DecidableEq K] in
theorem next_of_not_decides {σ : AcquireOp → Story} (hd : p.decides = false) :
    Story.next m (.acquire q p : Pc R K E) ch σ = σ := by
  funext op
  cases_type* AcquirePc CreatePc GuardPc Registry.ClaimPc Registry.RemovePc Domain.TryAcquirePc
  case claim.lockSlot | create.newEntry | create.build | claim.tryAcquire.activeAgain
      | guard.remove.entry => cases hd
  all_goals
    simp only [Story.next, Pc.FindsStarting, Pc.FindsActive, Pc.Builds, Pc.Cleans, Pc.Makes,
      and_false, false_or]

omit [DecidableEq R] [DecidableEq K] in
/-- A step without a panic leaves a story calm. -/
theorem Story.Calm.next {σ : AcquireOp → Story} {p : Pc R K E} {op : AcquireOp} (h : (σ op).Calm)
    (hb : p.Builds → ch ≠ .buildPanics ∧ ch ≠ .payloadPanics) (hc : p.Cleans → ch ≠ .keyPanics) :
    (Story.next m p ch σ op).Calm := by
  refine ⟨fun hp => hp.elim (fun hp => ?_) h.1, fun he => he.elim (fun he => ?_) h.2⟩
  · exact hp.1.elim (hb hp.2).1 (hb hp.2).2
  · exact he.elim (fun he => (hb he.2).2 he.1) fun he => hc he.2 he.1

/-- What a claim tells that evaluates its slot, and what the creation of a generation does. -/
theorem told_decides {σ : AcquireOp → Story} (hd : p.decides = true)
    (hb : ¬ (Pc.acquire q p : Pc R K E).Builds) (hc : ¬ (Pc.acquire q p : Pc R K E).Cleans)
    (hs : (Pc.acquire q p : Pc R K E).Sees m) (hheld : ∀ x, p.held x ≤ m.strong x)
    (hp : p.Told q.op (σ q.op)) :
    (Pc.acquire q p : Pc R K E).code.wp cfg t m fun _ p' _ =>
      p'.OfAcquire fun q' p' => p'.Told q'.op (Story.next m (.acquire q p) ch σ q'.op) := by
  have free {x y : Prop} (hx : ¬ x) (hy : ¬ y) : ¬ (x ∨ y) := fun h => h.elim hx hy
  have calm (h : (σ q.op).Calm) : (Story.next m (.acquire q p) ch σ q.op).Calm :=
    h.next (fun h => absurd h hb) fun h => absurd h hc
  cases q, p using AcquirePc.points
  case claim_lockSlot =>
    refine fun _ => ⟨fun generation hst => ?_, fun generation g hst => ?_⟩
    · exact ⟨fun ho => .inl ⟨ho, lookup_of_starting hs hst⟩, free id hp.2.1, calm hp.2.2⟩
    · refine ⟨free (fun h => ?_) hp.1, free id hp.2.1, calm hp.2.2⟩
      have hlook := (lookup_of_active hs hst).symm.trans h.2
      split_ifs at hlook
  case claim_tryAcquire_activeAgain n generation g =>
    have other {ph : Phase} (hph : m.control g = ph) (hne : ph ≠ .active) :
        (Story.next m (.acquire q (.claim (.tryAcquire n generation g .activeAgain))) ch σ
          q.op).Open :=
      ⟨free And.right hp.1, free (fun h => hne (hph.symm.trans h.2.2.2)) hp.2.1, calm hp.2.2⟩
    refine ⟨fun h => other h nofun, fun h => ?_, fun h => other h nofun, fun h => other h nofun⟩
    have hone : one g g ≤ m.strong g := hheld g
    have h0 : 0 < m.strong g := by rwa [one_self] at hone
    exact ⟨free And.right hp.1, .inl ⟨hs.1, hs.2, h0, h⟩, calm hp.2.2⟩
  case create_newEntry =>
    exact ⟨⟨free And.right hp.1.1, free id hp.1.2.1, calm hp.1.2.2⟩, .inl rfl⟩
  case create_build_none | create_build_some => exact absurd trivial hb
  case guard_remove_entry => exact absurd trivial hc
  all_goals cases hd

/-- What a poll of the build tells. -/
theorem told_build {σ : AcquireOp → Story} {site : Option Site}
    {mv : Move (Memory R K E) (Pc R K E)} (hp : AcquirePc.Told q.op (σ q.op) (.create site .build))
    (he : execute cfg t ch m (Pc.acquire q (.create site .build)).code = some mv) :
    mv.pc.OfAcquire fun q' p' =>
      p'.Told q'.op (Story.next m (.acquire q (.create site .build)) ch σ q'.op) := by
  have free {x y : Prop} (hx : ¬ x) (hy : ¬ y) : ¬ (x ∨ y) := fun h => h.elim hx hy
  obtain ⟨h1, h2, h3⟩ := hp.1
  have hstarting : ¬ (Story.next m (.acquire q (.create site .build)) ch σ q.op).starting :=
    free And.right h1
  have hactive : ¬ (Story.next m (.acquire q (.create site .build)) ch σ q.op).active := free id h2
  rw [eq_of_goOn he]
  dsimp only
  by_cases hpanic : ch = .buildPanics
  · rw [if_pos hpanic]
    have blames : (Acquired.err .constructionPanicked).Blames
        (Story.next m (.acquire q (.create site .build)) ch σ q.op) := by
      have hcalm : ¬ (Story.next m (.acquire q (.create site .build)) ch σ q.op).escaped := by
        refine free (free (fun h => ?_) And.right) h3.2
        exact nomatch hpanic.symm.trans h.1
      exact ⟨⟨fun _ => ⟨.inl ⟨.inl hpanic, trivial⟩, hcalm⟩, fun _ => rfl⟩,
        fun h => absurd h hcalm⟩
    have guarded := Acquired.Guarded.mk blames nofun nofun
    cases site
    · exact .of_guarded hstarting hactive guarded
    · exact ⟨⟨hstarting, hactive⟩, guarded⟩
  · rw [if_neg hpanic]
    by_cases hpayload : ch = .payloadPanics
    · rw [if_pos hpayload]
      have guarded := Acquired.Guarded.of_escaped
        (σ := Story.next m (.acquire q (.create site .build)) ch σ q.op)
        (.inl (.inl ⟨hpayload, trivial⟩))
      cases site
      · exact .of_guarded hstarting hactive guarded
      · exact ⟨⟨hstarting, hactive⟩, guarded⟩
    · rw [if_neg hpayload]
      exact ⟨⟨hstarting, hactive, h3.next (fun _ => ⟨hpanic, hpayload⟩) False.elim⟩, trivial⟩

/-- What the drop of a construction guard tells. -/
theorem told_guard {σ : AcquireOp → Story} {n generation : ℕ} {result : Acquired}
    {mv : Move (Memory R K E) (Pc R K E)}
    (hp : AcquirePc.Told q.op (σ q.op) (.guard n generation result (.remove .entry)))
    (he : execute cfg t ch m
      (Pc.acquire q (.guard n generation result (.remove .entry))).code = some mv) :
    mv.pc.OfAcquire fun q' p' => p'.Told q'.op
      (Story.next m (.acquire q (.guard n generation result (.remove .entry))) ch σ q'.op) := by
  have free {x y : Prop} (hx : ¬ x) (hy : ¬ y) : ¬ (x ∨ y) := fun h => h.elim hx hy
  by_cases hkey : ch = .keyPanics
  · have htells : Acquired.panicked.Tells q.op (Story.next m
        (.acquire q (.guard n generation result (.remove .entry))) ch σ q.op) :=
      .of_guarded (free And.right hp.1.1) (free id hp.1.2)
        (.of_escaped (.inl (.inr ⟨hkey, trivial⟩)))
    simp only [Pc.code, ResourceContext.acquire, ResourceContext.dropGuard, Registry.removeIfSame,
      execute, if_pos hkey] at he
    rw [eq_of_goOn he]
    exact htells
  · have hsame : Story.next m
        (.acquire q (.guard n generation result (.remove .entry)) : Pc R K E) ch σ = σ := by
      funext op
      simp only [Story.next, Pc.FindsStarting, Pc.FindsActive, Pc.Builds, Pc.Cleans, Pc.Makes,
        hkey, and_false, false_and, or_self, false_or]
    rw [hsame]
    have hrun : (Pc.acquire q (.guard n generation result (.remove .entry)) : Pc R K E).code.wp cfg
        t m fun _ p' _ => Pc.panic? (.acquire q (.guard n generation result (.remove .entry))) =
          some p' ∨ p'.OfAcquire fun q' p' => p'.Told q'.op (σ q'.op) := by
      refine ⟨.inl rfl, fun _ => ⟨fun _ _ => .inr ?_, fun _ => .inr hp⟩⟩
      dsimp only
      split <;> exact hp
    exact wp_calm hrun he hkey

theorem told_step {σ : AcquireOp → Story} {mv : Move (Memory R K E) (Pc R K E)}
    (hσ : ¬ (σ .getOrSpawn).starting) (hs : (Pc.acquire q p : Pc R K E).Sees m)
    (hheld : ∀ x, p.held x ≤ m.strong x) (hp : p.Told q.op (σ q.op))
    (he : execute cfg t ch m (Pc.acquire q p).code = some mv) :
    mv.pc.OfAcquire fun q' p' => p'.Told q'.op (Story.next m (.acquire q p) ch σ q'.op) := by
  by_cases hb : (Pc.acquire q p : Pc R K E).Builds
  · unfold Pc.Builds at hb
    split at hb
    · rename_i heq
      cases heq
      exact told_build hp he
    · exact hb.elim
  · by_cases hc : (Pc.acquire q p : Pc R K E).Cleans
    · unfold Pc.Cleans at hc
      split at hc
      · rename_i heq
        cases heq
        exact told_guard hp he
      · exact hc.elim
    · cases hd : p.decides with
      | false =>
        rw [next_of_not_decides hd]
        exact (told_run hσ hd hp).sound he
      | true => exact (told_decides hd hb hc hs hheld hp).sound he

/-- Nothing has happened in a thread that has not been started. -/
theorem story_new {ok : State R K E → Action R K E → Prop}
    (hs : History (step cfg) ok State.new es s) (hu : s.size ≤ u) (op : AcquireOp) :
    (story u es op).Open := by
  have none {P : Event R K E → Prop} (hP : ∀ e, P e → e.1.pc u ≠ .idle) : ¬ Happened P es := by
    rintro ⟨e, he, hPe⟩
    obtain ⟨h1, h2, v, h3, h4⟩ := hs.event he
    have hlt := lt_size_of_ne_idle (fresh_of_reach h1) (hP e hPe)
    have hle := size_of_reach (Relation.ReflTransGen.trans (.single ⟨e.2, h2, h3⟩) h4)
    exact absurd (hlt.trans_le (hle.trans hu)) (lt_irrefl _)
  refine ⟨fun h => none ?_ h.2, none ?_, none ?_, none ?_⟩
  · rintro e ⟨-, h⟩ hi
    rw [hi] at h
    exact h
  · rintro e ⟨-, h⟩ hi
    rw [hi] at h
    exact h
  · rintro e ⟨-, h⟩ hi
    rw [hi] at h
    exact h
  · rintro e (⟨-, h⟩ | ⟨-, h⟩) hi <;>
    · rw [hi] at h
      exact h

/-- **The story of an acquisition** is told by its point, in every run. -/
theorem told_of_history {ok : State R K E → Action R K E → Prop}
    (hs : History (step cfg) ok State.new es s) (u : Tid) :
    (s.pc u).OfAcquire fun q p => p.Told q.op (story u es q.op) := by
  revert u
  induction hs with
  | start => exact fun _ => trivial
  | @next es s s' a hrun ha h ih =>
    have told {u : Tid} {q : Request R K} {p : AcquirePc} (hp : s.pc u = .acquire q p) :
        p.Told q.op (story u es q.op) := by
      have hx := ih u
      rw [hp] at hx
      exact hx
    refine forall_acquire_exec (fun _ u q p => p.Told q.op (story u ((s, a) :: es) q.op)) h
      ?_ ?_ ?_ ?_
    · intro u q p hu hp
      rw [story_other fun ch e => hu (by rw [e]; rfl)]
      exact told hp
    · rintro t ch mv q p rfl hr hp he
      rw [story_run, hp]
      have hsees := (sees_of_reach hrun.reach).2 t
      have hheld := (counted_of_reach hrun.reach).held_le hr.1
      rw [hp] at hsees hheld
      exact told_step (σ := story t es) (fun h => h.1 rfl) hsees hheld (told hp) he
    · rintro t q p p' rfl hp hj
      rw [story_other fun _ => by nofun]
      have hx := told hp
      cases hj
      case listener => exact .of_open hx nofun nofun nofun
      case build => exact ⟨⟨hx.1.1, hx.1.2.1⟩, .of_open hx.1 nofun nofun nofun⟩
      case buildUnique => exact .of_open hx.1 nofun nofun nofun
    · rintro q rfl
      rw [story_other fun _ => by nofun]
      have hopen := story_new hrun (Nat.le_refl _) q.op
      exact ⟨hopen, hopen, trivial⟩

/-! ## Results -/

/-- **Results are exact**, in every run. When an acquisition has returned: `ShuttingDown` means that
the domain has left `Running`; `ConstructionPanicked` that its own build has panicked and no second
panic has escaped, and an acquisition from which a panic has escaped has returned nothing;
`get_or_spawn` never returns `Occupied`, `try_get_or_spawn` does so if and only if its claim has
found the identity starting, and `spawn` if and only if its claim has found it starting or has
acquired the generation it was active with; and what `spawn` returns is the generation it has made
itself. The activation inside `register` never fails. -/
theorem results_are_exact (hs : History (step cfg) (fun _ _ => True) State.new es s) :
    (∀ u q result, s.pc u = .acquire q (.returned result) →
      (result = .err .shuttingDown → s.mem.phase ≠ .running) ∧
      (result = .err .constructionPanicked ↔
        Happened (Panics u) es ∧ ¬ Happened (Escapes u) es) ∧
      (Happened (Escapes u) es → result = .panicked) ∧
      (q.op = .getOrSpawn → result ≠ .err .occupied) ∧
      (q.op = .tryGetOrSpawn →
        (result = .err .occupied ↔ Happened (Takes u Pc.FindsStarting) es)) ∧
      (q.op = .spawn →
        (result = .err .occupied ↔
          Happened (Takes u Pc.FindsStarting) es ∨ Happened (Takes u Pc.FindsActive) es)) ∧
      (q.op = .spawn → ∀ g, result = .ok g → Happened (Takes u (Pc.Makes g)) es)) ∧
    ∀ u q site g, s.pc u = .acquire q (.create site (.register g .activate)) →
      s.mem.control g = .starting := by
  refine ⟨fun u q result hp => ?_, fun u q site g hp => ?_⟩
  · have htold := told_of_history hs u
    have hexc := excused_of_reach hs.reach u
    rw [hp] at htold hexc
    have htold : result.Tells q.op (story u es q.op) := htold
    refine ⟨hexc, htold.blames.panicked, htold.blames.escaped, fun ho he => ?_, fun ho => ?_,
      fun ho => ?_, fun ho g hg => htold.made g hg ho⟩
    · rcases htold.occupied.mp he with h | h
      · exact h.1 ho
      · exact nomatch ho.symm.trans h.1
    · rw [htold.occupied]
      refine ⟨fun h => h.elim And.right fun h => (nomatch ho.symm.trans h.1), fun h => .inl ⟨?_, h⟩⟩
      exact fun e => nomatch ho.symm.trans e
    · rw [htold.occupied]
      refine ⟨fun h => h.imp And.right And.right, fun h => h.imp (fun h => ⟨?_, h⟩) fun h => ⟨ho, h⟩⟩
      exact fun e => nomatch ho.symm.trans e
  · have hst := starts_of_reach hs.reach u
    rw [hp] at hst
    exact hst

/-- An acquisition whose build panics. -/
def panickedRun : List (Action Unit Unit Unit) :=
  .call (.acquire ⟨.getOrSpawn, ⟨(), ()⟩⟩) :: List.replicate 8 (.run 0 .go) ++
    .run 0 .buildPanics :: List.replicate 6 (.run 0 .go)

theorem panickedRun_panics :
    Happened (Panics 0) (events (step (.single true)) [] State.new panickedRun) :=
  (((results_are_exact (history_exec (P := fun _ => True) (fun _ _ h => h) (fun _ _ => trivial)
    (by decide +kernel))).1 0 ⟨.getOrSpawn, ⟨(), ()⟩⟩ (.err .constructionPanicked)
    (by decide +kernel)).2.1.mp rfl).1

/-- An acquisition whose build panics, and then the key in the drop of its construction guard. -/
def escapedRun : List (Action Unit Unit Unit) :=
  .call (.acquire ⟨.getOrSpawn, ⟨(), ()⟩⟩) :: List.replicate 8 (.run 0 .go) ++
    [.run 0 .buildPanics, .run 0 .keyPanics]

/-- An acquisition whose own build has panicked can end otherwise than with
`ConstructionPanicked`. -/
theorem panics_without_result : ¬ ∀ (es : List (Event Unit Unit Unit)) (s : State Unit Unit Unit),
    History (step (.single true)) (fun _ _ => True) State.new es s → ∀ u q result,
      s.pc u = .acquire q (.returned result) →
        (result = .err .constructionPanicked ↔ Happened (Panics u) es) := by
  intro h
  have hs : History (step (.single true)) (fun _ _ => True) State.new
      (events (step (.single true)) [] State.new escapedRun)
      ((afterwards true escapedRun).get (by decide +kernel)) :=
    history_exec (P := fun _ => True) (fun _ _ h => h) (fun _ _ => trivial) _
  have hiff := h _ _ hs 0 ⟨.getOrSpawn, ⟨(), ()⟩⟩ .panicked (by decide +kernel)
  refine nomatch hiff.mpr ⟨_, List.mem_cons_of_mem _ List.mem_cons_self, .inl rfl, ?_⟩
  trivial

end Resourcery
