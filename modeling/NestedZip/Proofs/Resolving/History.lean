import NestedZip.Proofs.Connection

/-!
# Histories of a Resolver

A resolver's past as a list of actions, and what survives all of them.

A `Run` leaves open what becomes of all that is outside. Here it stays as it
is, so an archive outside can be spoken of as well, and the past is data: a
history is played on a new resolver, and two histories can be compared. Everything that
can be asked of a resolver is an action. Among them are all questions to a
connection, and the connection may be in any state: it may never have been
connected, or it may hold an archive of a buffer that was replaced long ago.

A clone of a resolver shares all that it has, so what a clone is asked is an
action like any other.

## Main definitions

* `Question`, `Question.ask`: What a connection may be asked.
* `Resolver.Action`, `Resolver.Action.run`: What a resolver may be asked.
* `Resolver.play`: A history, from the first action to the last.
* `Resolver.new`: A resolver that was asked nothing yet.
* `Connecting.Preserves`: A step of a connection that keeps a fact about the resolver.

## Theorems

* `Question.preserves_ask`: No question to a connection breaks what holds of all
  that is opened.
* `Resolver.upholds_step`, `Resolver.upholds_play`: What survives one action survives
  every history.
-/

namespace NestedZip

/-- What a connection may be asked. -/
inductive Question where
  | target
  | length
  | manifest (inflate : Decompressor)
  | content (inflate : Decompressor) (sink : Sink)
  | libraries (directory : String)

/-- Asks a connection, whatever it answers. -/
def Question.ask : Question → Connecting Unit
  | target => do let _ ← Connection.target
  | length => do let _ ← Connection.contentLength
  | manifest inflate => do let _ ← Connection.manifest inflate
  | content inflate sink => do let _ ← Connection.content inflate sink
  | libraries directory => do let _ ← Connection.libraries directory

namespace Connecting

variable {α β : Type}

/-- A step that keeps a fact about the resolver, also where it fails, and
    whichever connection takes it. -/
def Preserves (fact : Resolver → Prop) (x : Connecting α) : Prop :=
  ∀ (c : Connection) (r : Resolver), fact r →
    match x (c, r) with
    | .ok _ s => fact s.2
    | .error _ s => fact s.2

/-- Two steps of a connection preserve what both do. -/
theorem Preserves.bind {fact : Resolver → Prop} {x : Connecting α} {next : α → Connecting β}
    (hx : Preserves fact x) (hnext : ∀ a, Preserves fact (next a)) :
    Preserves fact (x >>= next) := by
  intro c r hr
  have hfirst := hx c r hr
  rcases hstep : x (c, r) with ⟨a, s⟩ | ⟨e, s⟩
  · rw [hstep] at hfirst
    rw [Resolving.bind_of_ok hstep]
    exact hnext a s.1 s.2 hfirst
  · rw [hstep] at hfirst
    rw [Resolving.bind_of_error hstep]
    exact hfirst

theorem preserves_pure {fact : Resolver → Prop} (a : α) :
    Preserves fact (pure a : Connecting α) := fun _ _ hr => hr

theorem preserves_throw {fact : Resolver → Prop} (e : Error) :
    Preserves fact (throw e : Connecting α) := fun _ _ hr => hr

end Connecting

namespace Connection

open Resolver Connecting

variable {start : Resolver} {fact : CacheKey → Handle → Prop}

/-- Counting what was fetched changes nothing that is known. -/
theorem preserves_charge {α : Type} (source : Nat) (m : Metered Error α) :
    Preserves (Knows start fact) (charge source m) := by
  intro c r hr
  have hstep := Resolver.preserves_charge source m r hr
  rcases hresult : Resolver.charge source m r with ⟨a, s⟩ | ⟨e, s⟩
  · rw [hresult] at hstep
    simp only [charge, hresult]
    exact hstep.1
  · rw [hresult] at hstep
    simp only [charge, hresult]
    exact hstep

variable (hclosed : Closed start fact)

include hclosed

/-- Looking for a target opens archives, and what is known about them stays known, whether the entry
    is there or not. -/
theorem preserves_locate (l : Locator) :
    Resolving.Preserves (Knows start fact) (fun t => ∃ key, fact key t.handle) (locate l) := by
  intro r hr
  have hstep := preserves_resolve hclosed l r hr
  rcases hresolve : resolve l r with ⟨h, s⟩ | ⟨e, s⟩
  · rw [hresolve] at hstep
    rcases hentry : l.entry with _ | name
    · rw [locate_of_none hentry hresolve]
      exact hstep
    · -- Whether the entry is there or not, the archive was opened.
      rw [locate_of_some hentry hresolve]
      cases findEntry h.archive name with
      | ok e => exact hstep
      | error e => exact hstep.1
  · rw [hresolve] at hstep
    unfold locate
    rw [Resolving.bind_of_error hresolve]
    exact hstep

/-- Connecting resolves the locator, or does nothing if that was done before. -/
theorem preserves_target : Preserves (Knows start fact) target := by
  intro c r hr
  rcases hstate : c.state with _ | e | t
  · -- Only here the resolver is asked at all.
    have hstep := preserves_locate hclosed c.locator r hr
    rcases hlocate : locate c.locator r with ⟨t, s⟩ | ⟨e, s⟩
    · rw [hlocate] at hstep
      simp only [target, hstate, hlocate]
      exact hstep.1
    · rw [hlocate] at hstep
      simp only [target, hstate, hlocate]
      exact hstep
  · -- What was settled before is answered from the connection.
    simp only [target, hstate]
    exact hr
  · simp only [target, hstate]
    exact hr

theorem preserves_archive : Preserves (Knows start fact) archive :=
  (preserves_target hclosed).bind fun _ => preserves_pure _

theorem preserves_presentArchive : Preserves (Knows start fact) presentArchive :=
  (preserves_archive hclosed).bind fun _ _ _ hr => hr

theorem preserves_contentLength : Preserves (Knows start fact) contentLength :=
  (preserves_target hclosed).bind fun _ => preserves_pure _

theorem preserves_manifest (inflate : Decompressor) :
    Preserves (Knows start fact) (manifest inflate) :=
  (preserves_presentArchive hclosed).bind fun _ =>
    (preserves_archive hclosed).bind fun _ => preserves_charge _ _

/-- So it does when the content is looked for. -/
theorem preserves_contentWindow : Preserves (Knows start fact) contentWindow := by
  refine (preserves_target hclosed).bind fun t => ?_
  refine (preserves_presentArchive hclosed).bind fun a => ?_
  cases t.entry with
  | none => exact preserves_pure _
  | some e =>
      simp only
      by_cases hdirectory : e.isDirectory
      · rw [if_pos hdirectory]
        exact preserves_throw _
      · -- The header in front of the data is read, which is counted.
        rw [if_neg hdirectory]
        exact preserves_charge _ _

/-- Reading the content keeps it as well, into whatever sink. -/
theorem preserves_content (inflate : Decompressor) (sink : Sink) :
    Preserves (Knows start fact) (content inflate sink) :=
  (preserves_contentWindow hclosed).bind fun _ =>
    (preserves_archive hclosed).bind fun _ =>
      (preserves_charge _ _).bind fun _ => preserves_pure _

/-- So does looking for the libraries, which reads the first bytes of some. -/
theorem preserves_libraries (directory : String) :
    Preserves (Knows start fact) (libraries directory) :=
  (preserves_presentArchive hclosed).bind fun _ =>
    (preserves_archive hclosed).bind fun _ =>
      (preserves_charge _ _).bind fun _ => preserves_pure _

/-- Whatever a connection is asked, it only opens archives in the resolver. -/
theorem preserves_ask (q : Question) : Preserves (Knows start fact) q.ask := by
  cases q with
  | target => exact (preserves_target hclosed).bind fun _ => preserves_pure _
  | length => exact (preserves_contentLength hclosed).bind fun _ => preserves_pure _
  | manifest inflate =>
      exact (preserves_manifest hclosed inflate).bind fun _ => preserves_pure _
  | content inflate sink =>
      exact (preserves_content hclosed inflate sink).bind fun _ => preserves_pure _
  | libraries directory =>
      exact (preserves_libraries hclosed directory).bind fun _ => preserves_pure _

end Connection

namespace Resolver

/-- What a resolver may be asked. The connection of a question may be any one, in
    any state. -/
inductive Action where
  | register (name : String) (content : ByteArray)
  | openRoot (container : String)
  | resolve (l : Locator)
  | ask (c : Connection) (q : Question)
  | evict (key : CacheKey)
  | evictBacking (identity : String)
  | clear

/-- The resolver after an action, whether that succeeded or failed. -/
def Action.run : Action → Resolver → Resolver
  | register name content, r => (r.register name content).2
  | openRoot container, r => after (Resolver.openRoot container) r
  | resolve l, r => after (Resolver.resolve l) r
  | ask c q, r =>
    match q.ask (c, r) with
    | .ok _ s => s.2
    | .error _ s => s.2
  | evict key, r => { r with cache := r.cache.evict key }
  | evictBacking identity, r => { r with cache := r.cache.evictBacking identity }
  | clear, r => { r with cache := {} }

/-- The resolver after a history. -/
def play (actions : List Action) (r : Resolver) : Resolver :=
  actions.foldl (fun r action => action.run r) r

/-- A resolver that was asked nothing yet. -/
def new (libraryDirectory : String) (outside : Surroundings) : Resolver :=
  { libraryDirectory, outside }

/-- An action that registers nothing only opens archives, or drops some. -/
theorem knows_run {start : Resolver} {fact : CacheKey → Handle → Prop}
    (hclosed : Closed start fact) {r : Resolver} (hr : Knows start fact r) (action : Action)
    (haction : ∀ name content, action ≠ .register name content) :
    Knows start fact (action.run r) := by
  cases action with
  | register name content => exact absurd rfl (haction name content)
  | openRoot container => exact knows_after (preserves_openRoot hclosed container) hr
  | resolve l => exact knows_after (preserves_resolve hclosed l) hr
  | ask c q =>
      have hstep := Connection.preserves_ask hclosed q c r hr
      rcases hresult : q.ask (c, r) with ⟨_, s⟩ | ⟨e, s⟩
      · rw [hresult] at hstep
        simp only [Action.run, hresult]
        exact hstep
      · rw [hresult] at hstep
        simp only [Action.run, hresult]
        exact hstep
  -- What is dropped may have been anything, and what is left was there before.
  | evict key => exact hr.of_subset rfl rfl rfl fun _ _ hget => get?_of_evict hget
  | evictBacking identity =>
      exact hr.of_subset rfl rfl rfl fun _ _ hget => (get?_of_evictBacking hget).1
  | clear =>
      refine hr.of_subset rfl rfl rfl fun key handle hget => ?_
      simp only [Action.run, Cache.get?, List.lookup_nil, reduceCtorEq] at hget

/-- An action registers a buffer, or else it only opens archives and drops some. -/
theorem register_or_knows (action : Action) (r : Resolver) :
    (∃ name content, action.run r = (r.register name content).2 ∧
      action = .register name content) ∨
    ∀ fact : CacheKey → Handle → Prop, Closed r fact → Knows r fact r →
      Knows r fact (action.run r) := by
  by_cases haction : ∃ name content, action = .register name content
  · rcases haction with ⟨name, content, rfl⟩
    exact Or.inl ⟨name, content, rfl, rfl⟩
  · -- Nothing else binds a name, and what is known needs no more than that.
    refine Or.inr fun fact hclosed hr => knows_run hclosed hr action fun name content heq => ?_
    exact haction ⟨name, content, heq⟩

section

variable {outside : Surroundings} {order : List (String × Source) → Prop}
  {fact : List (String × Source) → CacheKey → Handle → Prop}
  (hclosed : ∀ {start : Resolver}, start.outside = outside → order start.buffers →
    Closed start (fact start.buffers))
  (hregister : ∀ {r : Resolver} (name : String) (content : ByteArray),
    Upholds order fact r → Upholds order fact (r.register name content).2)

include hclosed hregister

/-- A fact that holds of all that is opened survives every action, if it survives
    registering. -/
theorem upholds_step {r : Resolver} (houtside : r.outside = outside) (h : Upholds order fact r)
    (action : Action) :
    (action.run r).outside = outside ∧ Upholds order fact (action.run r) := by
  rcases register_or_knows action r with ⟨name, content, hrun, _⟩ | hopens
  · rw [hrun]
    exact ⟨houtside, hregister name content h⟩
  · have hknows := hopens _ (hclosed houtside h.order) h.knows
    exact ⟨hknows.outside.trans houtside, h.of_knows hknows⟩

/-- And so it survives every history. -/
theorem upholds_play {r : Resolver} (houtside : r.outside = outside) (h : Upholds order fact r)
    (actions : List Action) :
    (play actions r).outside = outside ∧ Upholds order fact (play actions r) := by
  induction actions generalizing r with
  | nil => exact ⟨houtside, h⟩
  | cons action actions ih =>
      rcases upholds_step hclosed hregister houtside h action with ⟨houtside, h⟩
      exact ih houtside h

end

end Resolver

end NestedZip
