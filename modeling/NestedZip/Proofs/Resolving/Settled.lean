import NestedZip.Proofs.Resolving.History

/-!
# Settled Connections

A connection looks once for what its locator names, and what comes of it is final.

What a connection is asked is of two kinds. A glance takes what is written in the
connection itself, so it cannot change anything. An inquiry needs what the locator
names, and all inquiries get it by the same step, `Connection.target`. That step
does nothing the second time, so an inquiry cannot tell whether the connection had
looked already: `exists_settled` puts the state after looking in place of the one
before. From there on no event of any kind changes the connection, which is the
step and the run lemma here. The failure of a connection is kept as well, and it
is then given to every inquiry, even if the cause has gone away.

Most answers are what was found. The manifest and the content are read again each
time, in the archive as it is by then. What is outside may have changed, but a
buffer cannot: a handle on an archive in a buffer has no address, so it reads the
bytes that it was opened on, whatever was registered in place of them. That handles
under the name of a buffer have no address is an invariant of all events.

## Main definitions

* `Glance`, `Inquiry`, `Answer`: What a connection is asked and answers.
* `Connection.Target.answer`: What is answered for what was found.
* `Connection.Event`, `Connection.run`: What may happen to a connection and around it.
* `Resolver.Inside`, `Resolver.InBuffer`: Handles on archives in a buffer.

## Theorems

* `Connection.ask_of_target`: An inquiry depends on what the connection looks for.
* `Connection.ask_of_failed`, `Connection.ask_of_found`: The answers once it has looked.
* `Connection.event_of_settled`, `Connection.run_of_settled`: It stays as it is.
* `Resolver.preserves_resolve_buffer`: A root in a buffer leads to archives in a buffer.
* `Connection.upholds_event`, `Connection.upholds_run`: What survives every event.
* `Connection.looks_once`: All of this over every run.
-/

namespace NestedZip

/-- What a connection tells without looking for anything. -/
inductive Glance where
  | contentType
  | entryName
  | locator
  | isConnected

/-- What a connection has to look for first. -/
inductive Inquiry where
  | connect
  | archive
  | entryRecord
  | contentLength
  | manifest (inflate : Decompressor)
  | openStream
  | content (inflate : Decompressor) (sink : Sink)

/-- What a connection answers. -/
inductive Answer where
  | done
  | archive (h : Handle)
  | entryRecord (e : Option Entry)
  | length (count : Nat)
  | manifest (m : Option Manifest)
  | stream (w : Window)
  | content (d : Delivery)
  | contentType (type : String)
  | entryName (name : Option Bytes)
  | locator (l : Locator)
  | isConnected (connected : Bool)

/-- Asks for what the connection itself tells. -/
def Glance.ask : Glance → Connecting Answer
  | contentType => do return .contentType (ContentType.guess (← get).1.locator)
  | entryName => do return .entryName (← get).1.locator.entry
  | locator => do return .locator (← get).1.locator
  | isConnected => do return .isConnected (← get).1.isConnected

/-- Asks for what has to be looked for. A stream is the window that it is opened on, and
    the content is what reading a stream to the end brings. -/
def Inquiry.ask : Inquiry → Connecting Answer
  | connect => do
    let _ ← Connection.target
    return .done
  | archive => return .archive (← Connection.archive)
  | entryRecord => return .entryRecord (← Connection.entry?)
  | contentLength => return .length (← Connection.contentLength)
  | manifest inflate => return .manifest (← Connection.manifest inflate)
  | openStream => return .stream (← Connection.contentWindow)
  | content inflate sink => return .content (← Connection.content inflate sink)

/-- Whether an inquiry reads from the source each time. -/
def Inquiry.reads : Inquiry → Bool
  | connect | archive | entryRecord | contentLength => false
  | manifest _ | openStream | content _ _ => true

namespace Connecting

variable {α β : Type}

/-- The step that gives an outcome and does nothing. -/
def giving (x : Except Error α) : Connecting α := fun s =>
  match x with
  | .ok a => .ok a s
  | .error e => .error e s

/-- What a step answers. -/
def outcome (x : Connecting α) (s : Connection × Resolver) : Except Error α :=
  match x s with
  | .ok a _ => .ok a
  | .error e _ => .error e

/-- The connection and the resolver behind a step. -/
def behind (x : Connecting α) (s : Connection × Resolver) : Connection × Resolver :=
  match x s with
  | .ok _ t => t
  | .error _ t => t

theorem outcome_of_giving {x : Connecting α} {s t : Connection × Resolver} {y : Except Error α}
    (h : x s = giving y t) : outcome x s = y := by
  unfold outcome
  rw [h]
  cases y with
  | ok a => rfl
  | error e => rfl

theorem behind_of_giving {x : Connecting α} {s t : Connection × Resolver} {y : Except Error α}
    (h : x s = giving y t) : behind x s = t := by
  unfold behind
  rw [h]
  cases y with
  | ok a => rfl
  | error e => rfl

theorem outcome_congr {x : Connecting α} {s t : Connection × Resolver} (h : x s = x t) :
    outcome x s = outcome x t := by
  unfold outcome
  rw [h]

theorem behind_congr {x : Connecting α} {s t : Connection × Resolver} (h : x s = x t) :
    behind x s = behind x t := by
  unfold behind
  rw [h]

/-- What a step keeps is kept behind it, whether it answers or fails. -/
theorem Preserves.behind {fact : Resolver → Prop} {x : Connecting α} (hx : Preserves fact x)
    (s : Connection × Resolver) (h : fact s.2) : fact (behind x s).2 := by
  have hstep := hx s.1 s.2 h
  unfold Connecting.behind
  rcases hresult : x s with ⟨a, t⟩ | ⟨e, t⟩
  · rw [hresult] at hstep
    exact hstep
  · rw [hresult] at hstep
    exact hstep

/-- Where the first step does not tell two states apart, no later step does. -/
theorem bind_congr_state {x : Connecting α} {s t : Connection × Resolver} (h : x s = x t)
    (next : α → Connecting β) : (x >>= next) s = (x >>= next) t := by
  rcases hx : x t with ⟨a, u⟩ | ⟨e, u⟩
  · rw [Resolving.bind_of_ok hx, Resolving.bind_of_ok (h.trans hx)]
  · rw [Resolving.bind_of_error hx, Resolving.bind_of_error (h.trans hx)]

/-- A step that is only followed by a restatement of its answer. -/
theorem map_of_giving {x : Connecting α} {s t : Connection × Resolver} {y : Except Error α}
    (h : x s = giving y t) (f : α → β) :
    (do return f (← x) : Connecting β) s = giving (y.map f) t := by
  cases y with
  | ok a => exact Resolving.bind_of_ok h _
  | error e => exact Resolving.bind_of_error h _

end Connecting

namespace Connection

open Connecting

/-- The window of what was found, in the archive as it is read now. -/
def Target.window (t : Target) (a : Archive) : Metered Error Window :=
  match t.entry with
  | none => pure a.window
  | some e =>
    if e.isDirectory then .fail (.notAFile a.url e.displayName)
    else a.recordData e

/-- What is answered for what was found, if the archive is read as it is here. -/
def Target.answer (t : Target) (a : Archive) : Inquiry → Except Error Answer
  | .connect => .ok .done
  | .archive => .ok (.archive t.handle)
  | .entryRecord => .ok (.entryRecord t.entry)
  | .contentLength => .ok (.length t.length)
  | .manifest inflate => (a.manifest inflate).outcome.map .manifest
  | .openStream => (t.window a).outcome.map .stream
  | .content inflate sink =>
    ((t.window a).outcome.map fun w => w.deliver inflate sink).map .content

variable {s t : Connection × Resolver} {c : Connection}

/-- What came of looking is remembered, whatever it was. -/
theorem target_gives (s : Connection × Resolver) :
    ∃ x r, target s = giving x ({ s.1 with state := some x }, r) := by
  obtain ⟨⟨l, state⟩, r⟩ := s
  rcases state with _ | e | t
  · -- Only a connection that has not looked asks the resolver.
    unfold target
    simp only
    rcases locate l r with ⟨t, r'⟩ | ⟨e, r'⟩
    · exact ⟨.ok t, r', rfl⟩
    · exact ⟨.error e, r', rfl⟩
  · exact ⟨.error e, r, rfl⟩
  · exact ⟨.ok t, r, rfl⟩

/-- Then it is given again, and nothing happens. -/
theorem target_of_settled {x : Except Error Target} (hstate : c.state = some x) (r : Resolver) :
    target (c, r) = giving x (c, r) := by
  obtain ⟨l, _⟩ := c
  subst hstate
  rcases x with e | t
  · rfl
  · rfl

theorem target_again (s : Connection × Resolver) : target (behind target s) = target s := by
  rcases target_gives s with ⟨x, r, htarget⟩
  rw [behind_of_giving htarget, htarget]
  exact target_of_settled rfl r

theorem state_behind_target (s : Connection × Resolver) :
    (behind target s).1.state = some (outcome target s) := by
  rcases target_gives s with ⟨x, r, htarget⟩
  rw [behind_of_giving htarget, outcome_of_giving htarget]

/-- Whatever is asked goes through what is looked for. -/
theorem ask_of_target (h : target s = target t) (q : Inquiry) : q.ask s = q.ask t := by
  have harchive : archive s = archive t := bind_congr_state h _
  have hpresent : presentArchive s = presentArchive t := bind_congr_state harchive _
  cases q with
  | connect => exact bind_congr_state h _
  | archive => exact bind_congr_state harchive _
  | entryRecord => exact bind_congr_state (bind_congr_state h _) _
  | contentLength => exact bind_congr_state (bind_congr_state h _) _
  | manifest inflate => exact bind_congr_state (bind_congr_state hpresent _) _
  | openStream => exact bind_congr_state (bind_congr_state h _) _
  | content inflate sink => exact bind_congr_state (bind_congr_state (bind_congr_state h _) _) _

/-- A connection that failed gives the one failure to whatever it is asked. -/
theorem ask_of_failed {e : Error} (hstate : c.state = some (.error e)) (q : Inquiry)
    (r : Resolver) : q.ask (c, r) = .error e (c, r) := by
  -- All seven look for the target first, and so the failure is the one that was remembered.
  have htarget : target (c, r) = .error e (c, r) := target_of_settled hstate r
  have harchive : archive (c, r) = .error e (c, r) := Resolving.bind_of_error htarget _
  have hpresent : presentArchive (c, r) = .error e (c, r) := Resolving.bind_of_error harchive _
  have hwindow : contentWindow (c, r) = .error e (c, r) := Resolving.bind_of_error htarget _
  cases q with
  | connect => exact Resolving.bind_of_error htarget _
  | archive => exact Resolving.bind_of_error harchive _
  | entryRecord => exact Resolving.bind_of_error (Resolving.bind_of_error htarget _) _
  | contentLength => exact Resolving.bind_of_error (Resolving.bind_of_error htarget _) _
  | manifest inflate => exact Resolving.bind_of_error (Resolving.bind_of_error hpresent _) _
  | openStream => exact Resolving.bind_of_error hwindow _
  | content inflate sink => exact Resolving.bind_of_error (Resolving.bind_of_error hwindow _) _

/-- Reading gives its outcome, and nothing changes but what was fetched. -/
theorem charge_gives {α : Type} (source : Nat) (m : Metered Error α) (c : Connection)
    (r : Resolver) :
    ∃ fetched, charge source m (c, r) = giving m.outcome (c, { r with fetched }) := by
  unfold charge Resolver.charge giving
  rcases m.outcome with e | a
  · exact ⟨_, rfl⟩
  · exact ⟨_, rfl⟩

section

variable {t : Target}

theorem presentArchive_of_found (hstate : c.state = some (.ok t)) (r : Resolver) :
    presentArchive (c, r) = .ok (r.present t.handle) (c, r) := by
  have harchive : archive (c, r) = .ok t.handle (c, r) :=
    Resolving.bind_of_ok (target_of_settled hstate r) _
  exact Resolving.bind_of_ok harchive _

/-- Once the target is found, the window of its content is the one the archive gives now. -/
theorem contentWindow_of_found (hstate : c.state = some (.ok t)) (r : Resolver) :
    ∃ fetched, contentWindow (c, r) =
      giving (t.window (r.present t.handle)).outcome (c, { r with fetched }) := by
  unfold contentWindow Target.window
  rw [Resolving.bind_of_ok (target_of_settled hstate r),
    Resolving.bind_of_ok (presentArchive_of_found hstate r)]
  rcases t.entry with _ | e
  · exact ⟨r.fetched, rfl⟩
  · simp only
    by_cases hdirectory : e.isDirectory
    · rw [if_pos hdirectory, if_pos hdirectory]
      exact ⟨r.fetched, rfl⟩
    · -- The header in front of the data is read, so bytes may be fetched.
      rw [if_neg hdirectory, if_neg hdirectory]
      exact charge_gives _ _ c r

/-- The content is that window delivered, or the failure to find it. -/
theorem content_of_found (hstate : c.state = some (.ok t)) (inflate : Decompressor)
    (sink : Sink) (r : Resolver) :
    ∃ fetched, content inflate sink (c, r) =
      giving ((t.window (r.present t.handle)).outcome.map fun w => w.deliver inflate sink)
        (c, { r with fetched }) := by
  rcases contentWindow_of_found hstate r with ⟨fetched, hwindow⟩
  unfold content
  rcases houtcome : (t.window (r.present t.handle)).outcome with e | w
  · rw [houtcome] at hwindow
    exact ⟨fetched, Resolving.bind_of_error hwindow _⟩
  · rw [houtcome] at hwindow
    -- The archive is asked for once more, after something was fetched to find the window.
    have harchive : archive (c, { r with fetched }) = .ok t.handle (c, { r with fetched }) :=
      Resolving.bind_of_ok (target_of_settled hstate _) _
    rw [Resolving.bind_of_ok hwindow, Resolving.bind_of_ok harchive]
    exact ⟨_, rfl⟩

/-- The manifest is the one of the archive as it is now. -/
theorem manifest_of_found (hstate : c.state = some (.ok t)) (inflate : Decompressor)
    (r : Resolver) :
    ∃ fetched, manifest inflate (c, r) =
      giving ((r.present t.handle).manifest inflate).outcome (c, { r with fetched }) := by
  have harchive : archive (c, r) = .ok t.handle (c, r) :=
    Resolving.bind_of_ok (target_of_settled hstate r) _
  unfold manifest
  rw [Resolving.bind_of_ok (presentArchive_of_found hstate r), Resolving.bind_of_ok harchive]
  exact charge_gives _ _ c r

/-- What is answered is what was found, in the archive as it is read now. Nothing changes
    but what was fetched, and that only where the source is read. -/
theorem ask_of_found (hstate : c.state = some (.ok t)) (q : Inquiry) (r : Resolver) :
    ∃ fetched, q.ask (c, r) = giving (t.answer (r.present t.handle) q) (c, { r with fetched }) ∧
      (q.reads = false → fetched = r.fetched) := by
  have htarget : target (c, r) = .ok t (c, r) := target_of_settled hstate r
  cases q with
  | connect => exact ⟨_, Resolving.bind_of_ok htarget _, fun _ => rfl⟩
  | archive =>
      have harchive : archive (c, r) = .ok t.handle (c, r) := Resolving.bind_of_ok htarget _
      exact ⟨_, Resolving.bind_of_ok harchive _, fun _ => rfl⟩
  | entryRecord =>
      have hentry : entry? (c, r) = .ok t.entry (c, r) := Resolving.bind_of_ok htarget _
      exact ⟨_, Resolving.bind_of_ok hentry _, fun _ => rfl⟩
  | contentLength =>
      have hlength : contentLength (c, r) = .ok t.length (c, r) := Resolving.bind_of_ok htarget _
      exact ⟨_, Resolving.bind_of_ok hlength _, fun _ => rfl⟩
  | manifest inflate =>
      -- From here on something may be read, so nothing is left to show for the second half.
      rcases manifest_of_found hstate inflate r with ⟨fetched, hmanifest⟩
      exact ⟨fetched, map_of_giving hmanifest Answer.manifest, fun h => Bool.noConfusion h⟩
  | openStream =>
      rcases contentWindow_of_found hstate r with ⟨fetched, hwindow⟩
      exact ⟨fetched, map_of_giving hwindow Answer.stream, fun h => Bool.noConfusion h⟩
  | content inflate sink =>
      rcases content_of_found hstate inflate sink r with ⟨fetched, hcontent⟩
      exact ⟨fetched, map_of_giving hcontent Answer.content, fun h => Bool.noConfusion h⟩

/-- How an archive is read now matters to reading only. -/
theorem answer_of_not_reads (a b : Archive) {q : Inquiry} (hreads : q.reads = false) :
    t.answer a q = t.answer b q := by
  cases q with
  | connect => rfl
  | archive => rfl
  | entryRecord => rfl
  | contentLength => rfl
  | manifest inflate => exact Bool.noConfusion hreads
  | openStream => exact Bool.noConfusion hreads
  | content inflate sink => exact Bool.noConfusion hreads

end

section

variable {x : Except Error Target} (hstate : c.state = some x) (q : Inquiry) (r r' : Resolver)

include hstate

/-- A connection that has looked stays as it is, and of the resolver nothing changes but
    what was fetched. -/
theorem behind_of_settled : ∃ fetched, behind q.ask (c, r) = (c, { r with fetched }) := by
  rcases x with e | t
  · exact ⟨r.fetched, behind_of_giving (y := .error e) (ask_of_failed hstate q r)⟩
  · rcases ask_of_found hstate q r with ⟨fetched, hask, _⟩
    exact ⟨fetched, behind_of_giving hask⟩

/-- What it answers without reading is the same in any resolver, and changes nothing. -/
theorem ask_of_settled (hreads : q.reads = false) :
    q.ask (c, r') = giving (outcome q.ask (c, r)) (c, r') := by
  rcases x with e | t
  · have houtcome : outcome q.ask (c, r) = .error e := by
      unfold outcome
      rw [ask_of_failed hstate]
    rw [houtcome, ask_of_failed hstate]
    rfl
  · rcases ask_of_found hstate q r with ⟨_, hask, _⟩
    rcases ask_of_found hstate q r' with ⟨fetched, hask', hnothing⟩
    rw [hask', outcome_of_giving hask, hnothing hreads,
      answer_of_not_reads (r'.present t.handle) (r.present t.handle) hreads]

theorem isConnected_of_settled : c.isConnected = true ↔ ∃ t, x = .ok t := by
  unfold isConnected
  rw [hstate]
  rcases x with e | t
  · simp only [Bool.false_eq_true, reduceCtorEq, exists_false]
  · simp only [Except.ok.injEq, exists_eq']

theorem outcome_connect_of_settled :
    outcome (Inquiry.ask .connect) (c, r) = x.map fun _ => .done := by
  rcases x with e | t
  · exact outcome_of_giving (y := .error e) (ask_of_failed hstate .connect r)
  · rcases ask_of_found hstate .connect r with ⟨_, hask, _⟩
    exact outcome_of_giving hask

/-- What it answers at all is the same in any resolver, unless it is read from outside. -/
theorem outcome_of_settled (hbuffer : ∀ t, x = .ok t → t.handle.address = none) :
    outcome q.ask (c, r') = outcome q.ask (c, r) := by
  rcases x with e | t
  · unfold outcome
    rw [ask_of_failed hstate, ask_of_failed hstate]
  · rcases ask_of_found hstate q r with ⟨_, hask, _⟩
    rcases ask_of_found hstate q r' with ⟨_, hask', _⟩
    rw [outcome_of_giving hask, outcome_of_giving hask',
      Resolver.present_of_buffer r (hbuffer t rfl), Resolver.present_of_buffer r' (hbuffer t rfl)]

end

/-- Whatever a connection is asked first, it has looked by then, and every answer is as if
    it had been told to look before. -/
theorem exists_settled (s : Connection × Resolver) (first : Inquiry) :
    ∃ c r, c.state = some (outcome target s) ∧ (∀ q : Inquiry, q.ask s = q.ask (c, r)) ∧
      (behind first.ask s).1 = c := by
  have hask : ∀ q : Inquiry, q.ask s = q.ask (behind target s) :=
    ask_of_target (target_again s).symm
  rcases behind_of_settled (state_behind_target s) first (behind target s).2 with
    ⟨fetched, hbehind⟩
  refine ⟨(behind target s).1, (behind target s).2, state_behind_target s, hask, ?_⟩
  rw [behind_congr (hask first)]
  exact (congrArg Prod.fst hbehind :)

/-- Something that happens to a connection, or to the resolver and all around it. -/
inductive Event where
  | glance (g : Glance)
  | inquire (q : Inquiry)
  | other (action : Resolver.Action)
  | change (outside : Surroundings)

/-- The connection and the resolver after an event, whether that succeeded or failed. -/
def Event.run : Event → Connection × Resolver → Connection × Resolver
  | glance g, s => behind g.ask s
  | inquire q, s => behind q.ask s
  | other action, (c, r) => (c, action.run r)
  | change outside, (c, r) => (c, { r with outside })

/-- The connection and the resolver after all events. -/
def run (events : List Event) (s : Connection × Resolver) : Connection × Resolver :=
  events.foldl (fun s event => event.run s) s

/-- What a connection tells by itself changes nothing. -/
theorem glance_gives (g : Glance) (s : Connection × Resolver) :
    g.ask s = giving (outcome g.ask s) s ∧ behind g.ask s = s := by
  cases g with
  | contentType => exact ⟨rfl, rfl⟩
  | entryName => exact ⟨rfl, rfl⟩
  | locator => exact ⟨rfl, rfl⟩
  | isConnected => exact ⟨rfl, rfl⟩

/-- Whatever happens, a connection that has looked stays as it is. -/
theorem event_of_settled {x : Except Error Target} (hstate : s.1.state = some x) (event : Event) :
    (event.run s).1 = s.1 := by
  obtain ⟨c, r⟩ := s
  cases event with
  | glance g => exact congrArg Prod.fst (glance_gives g (c, r)).2
  | inquire q =>
      rcases behind_of_settled hstate q r with ⟨fetched, hbehind⟩
      exact (congrArg Prod.fst hbehind :)
  | other action => rfl
  | change outside => rfl

theorem run_of_settled {x : Except Error Target} (hstate : s.1.state = some x)
    (events : List Event) : (run events s).1 = s.1 := by
  induction events generalizing s with
  | nil => rfl
  | cons event events ih =>
      have hstep := event_of_settled hstate event
      exact (ih (hstep ▸ hstate)).trans hstep

/-- Before it was asked for anything that has to be looked for, a connection has not
    looked. -/
theorem run_of_quiet (events : List Event) (hquiet : ∀ q, .inquire q ∉ events) :
    (run events s).1 = s.1 := by
  induction events generalizing s with
  | nil => rfl
  | cons event events ih =>
      have hrest := ih (s := event.run s) fun q hq => hquiet q (List.mem_cons_of_mem _ hq)
      refine hrest.trans ?_
      cases event with
      | glance g => exact congrArg Prod.fst (glance_gives g s).2
      | inquire q => exact absurd List.mem_cons_self (hquiet q)
      | other action => rfl
      | change outside => rfl

end Connection

namespace Resolver

/-- What is kept of a buffer is not outside. -/
structure Inside (key : CacheKey) (h : Handle) : Prop where
  identity : h.archive.window.identity = key.identity
  address : memoryScheme.toList.isPrefixOf key.identity.toList → h.address = none

/-- What is opened has the identity it is kept under, and no address when that is a buffer. -/
theorem inside_closed {start : Resolver} (hnamed : Named start.buffers) :
    Closed start Inside where
  root := by
    intro container source number a hopens ha
    rcases Archive.ofWindow_eq_ok ha with ⟨_, _, _, hwindow, _⟩
    refine ⟨congrArg Window.identity hwindow, fun hmemory => ?_⟩
    cases hopens with
    | buffer _ hlookup => exact (hnamed container source hlookup).2
    | found number _ _ _ =>
        -- Outside of the buffers nothing has their scheme.
        exact absurd hmemory (not_memory_outside _ _)
  nested := by
    intro key parent r name data number a hparent _ hdata ha
    rcases Archive.ofWindow_eq_ok ha with ⟨_, _, _, hwindow, _⟩
    have hidentity := (identity_of_nestedSource hdata).trans hparent.identity
    refine ⟨congrArg Window.identity hwindow, fun hmemory => hparent.address ?_⟩
    rw [← hidentity]
    exact hmemory

/-- A handle on an archive in a buffer. -/
structure InBuffer (h : Handle) : Prop where
  identity : memoryScheme.toList.isPrefixOf h.archive.window.identity.toList
  address : h.address = none

theorem Inside.inBuffer {key : CacheKey} {h : Handle} (hkept : Inside key h)
    (hkey : memoryScheme.toList.isPrefixOf key.identity.toList) : InBuffer h :=
  ⟨by rw [hkept.identity]; exact hkey, hkept.address hkey⟩

variable {start : Resolver}

open Resolving

/-- A root with the scheme of buffers is opened in a buffer, kept or not. -/
theorem preserves_openRoot_buffer (hnamed : Named start.buffers) {container : String}
    (hmemory : memoryScheme.toList.isPrefixOf container.toList) :
    Preserves (Knows start Inside) InBuffer (openRoot container) := by
  have hclosed := inside_closed hnamed
  intro r hr
  rw [openRoot_apply]
  rcases hget : r.cache.get? { identity := container, offset := 0 } with _ | h
  · refine (preserves_openSource container).bind (fun source hsource => ?_) r hr
    refine (preserves_keep fun number a ha => ?_).mono fun h hh => Inside.inBuffer hh ?_
    · exact hclosed.root container source number a hsource ha
    -- A root with the scheme of buffers names nothing outside, so its source has its name.
    cases hsource with
    | buffer _ hlookup =>
        simp only [(hnamed container source hlookup).1]
        exact hmemory
    | found _ houtside _ _ => exact absurd hmemory houtside
  · exact ⟨hr, (hr.kept _ h hget).inBuffer hmemory⟩

/-- What is nested in an archive in a buffer lies in that buffer. -/
theorem preserves_openNested_buffer (hnamed : Named start.buffers) {parent : Handle}
    (hparent : InBuffer parent) (name : Bytes) :
    Preserves (Knows start Inside) InBuffer (openNested parent name) := by
  have hclosed := inside_closed hnamed
  intro r hr
  rw [openNested_apply]
  refine (preserves_charge parent.source ((r.present parent).nestedSource name)).bind
    (fun data hdata => ?_) r hr
  have hkey : Inside ⟨parent.archive.window.identity, 0⟩ parent :=
    ⟨rfl, fun _ => hparent.address⟩
  -- The parent may have left the cache by now: that it lies in the buffer is known of the handle.
  refine (preserves_keep fun number a ha => ?_).mono fun h hh => Inside.inBuffer hh ?_
  · exact hclosed.nested _ parent r name data number a hkey hr.outside hdata ha
  · simp only [identity_of_nestedSource hdata]
    exact hparent.identity

/-- What a root in a buffer leads to is in a buffer. -/
theorem preserves_resolve_buffer (hnamed : Named start.buffers) (l : Locator)
    (hmemory : memoryScheme.toList.isPrefixOf l.root.toList) :
    Preserves (Knows start Inside) InBuffer (resolve l) := by
  refine (preserves_openRoot_buffer hnamed hmemory).bind fun root hroot => ?_
  induction l.archives generalizing root with
  | nil => exact fun r hr => ⟨hr, hroot⟩
  | cons name names ih =>
      rw [List.foldlM_cons]
      exact (preserves_openNested_buffer hnamed hroot name).bind ih

end Resolver

namespace Connection

open Resolver Connecting

/-- Whatever is asked, it only opens archives in the resolver. -/
theorem preserves_inquiry {start : Resolver} {fact : CacheKey → Handle → Prop}
    (hclosed : Closed start fact) (q : Inquiry) : Preserves (Knows start fact) q.ask := by
  cases q with
  | connect => exact (preserves_target hclosed).bind fun _ => preserves_pure _
  | archive => exact (preserves_archive hclosed).bind fun _ => preserves_pure _
  | entryRecord =>
      have hentry : Preserves (Knows start fact) entry? :=
        (preserves_target hclosed).bind fun _ => preserves_pure _
      exact hentry.bind fun _ => preserves_pure _
  | contentLength => exact (preserves_contentLength hclosed).bind fun _ => preserves_pure _
  | manifest inflate => exact (preserves_manifest hclosed inflate).bind fun _ => preserves_pure _
  | openStream => exact (preserves_contentWindow hclosed).bind fun _ => preserves_pure _
  | content inflate sink =>
      exact (preserves_content hclosed inflate sink).bind fun _ => preserves_pure _

/-- An event registers a buffer or changes what is outside, or else it only opens archives
    and drops some. -/
theorem event_cases (event : Event) (s : Connection × Resolver) :
    (∃ name content, (event.run s).2 = (s.2.register name content).2) ∨
    (∃ outside, (event.run s).2 = { s.2 with outside }) ∨
    ∀ fact : CacheKey → Handle → Prop, Closed s.2 fact → Knows s.2 fact s.2 →
      Knows s.2 fact (event.run s).2 := by
  obtain ⟨c, r⟩ := s
  cases event with
  | glance g =>
      -- A glance leaves the resolver as it is.
      refine Or.inr (Or.inr fun fact _ hr => ?_)
      change Knows r fact (behind g.ask (c, r)).2
      rw [(glance_gives g (c, r)).2]
      exact hr
  | inquire q =>
      exact Or.inr (Or.inr fun fact hclosed hr =>
        (preserves_inquiry hclosed q).behind (c, r) hr)
  | other action =>
      rcases register_or_knows action r with ⟨name, content, hrun, _⟩ | hopens
      · exact Or.inl ⟨name, content, hrun⟩
      · exact Or.inr (Or.inr hopens)
  | change outside => exact Or.inr (Or.inl ⟨outside, rfl⟩)

section

variable {order : List (String × Source) → Prop}
  {fact : List (String × Source) → CacheKey → Handle → Prop}
  (hclosed : ∀ {start : Resolver}, order start.buffers → Closed start (fact start.buffers))
  (hregister : ∀ {r : Resolver} (name : String) (content : ByteArray),
    Upholds order fact r → Upholds order fact (r.register name content).2)

include hclosed hregister

/-- A fact that holds of all that is opened survives every event, if it survives
    registering. -/
theorem upholds_event {s : Connection × Resolver} (h : Upholds order fact s.2) (event : Event) :
    Upholds order fact (event.run s).2 := by
  rcases event_cases event s with ⟨name, content, hrun⟩ | ⟨outside, hrun⟩ | hopens
  · rw [hrun]
    exact hregister name content h
  · rw [hrun]
    exact ⟨h.order, rfl, rfl, Nat.le_refl _, h.knows.kept⟩
  · exact h.of_knows (hopens _ (hclosed h.order) h.knows)

/-- And so it survives all that may happen. -/
theorem upholds_run {s : Connection × Resolver} (h : Upholds order fact s.2)
    (events : List Event) : Upholds order fact (run events s).2 := by
  induction events generalizing s with
  | nil => exact h
  | cons event events ih => exact ih (upholds_event hclosed hregister h event)

end

/-- What is kept of a buffer is not outside, whatever happens. -/
abbrev KeepsInside (r : Resolver) : Prop := Upholds Named (fun _ => Inside) r

theorem keepsInside_register {r : Resolver} (h : KeepsInside r) (name : String)
    (content : ByteArray) : KeepsInside (r.register name content).2 :=
  ⟨named_register h.order name content, rfl, rfl, Nat.le_refl _, fun key handle hget =>
    h.knows.kept key handle (get?_of_register hget).1⟩

theorem keepsInside_run {s : Connection × Resolver} (h : KeepsInside s.2) (events : List Event) :
    KeepsInside (run events s).2 :=
  upholds_run inside_closed (fun name content h => keepsInside_register h name content) h events

/-- What a root in a buffer leads to is read there, whatever becomes of the resolver. -/
theorem found_in_buffer {l : Locator} (hmemory : memoryScheme.toList.isPrefixOf l.root.toList)
    {r s : Resolver} (h : KeepsInside r) {t : Target} (hlocate : locate l r = .ok t s) :
    t.handle.address = none := by
  have hstep := preserves_resolve_buffer h.order l hmemory r h.knows
  rcases hresolve : resolve l r with ⟨handle, r'⟩ | ⟨e, r'⟩
  · rw [hresolve] at hstep
    -- The handle is the one that was resolved, with or without an entry.
    rcases hentry : l.entry with _ | name
    · rw [locate_of_none hentry hresolve] at hlocate
      cases hlocate
      exact hstep.2.address
    · rw [locate_of_some hentry hresolve] at hlocate
      rcases hfind : findEntry handle.archive name with e | e
      · rw [hfind] at hlocate
        cases hlocate
      · rw [hfind] at hlocate
        cases hlocate
        exact hstep.2.address
  · unfold locate at hlocate
    rw [Resolving.bind_of_error hresolve] at hlocate
    cases hlocate

/-- What was found is what is remembered, and is read in its buffer. -/
theorem address_of_remembered {l : Locator} (hmemory : memoryScheme.toList.isPrefixOf l.root.toList)
    {r : Resolver} (h : KeepsInside r) {t : Target}
    (houtcome : outcome target ({ locator := l }, r) = .ok t) : t.handle.address = none := by
  rcases hlocate : locate l r with ⟨t', r'⟩ | ⟨e, r'⟩
  · unfold outcome at houtcome
    rw [target_of_ok hlocate, Except.ok.injEq] at houtcome
    rw [← houtcome]
    exact found_in_buffer hmemory h hlocate
  · unfold outcome at houtcome
    rw [target_of_error hlocate] at houtcome
    exact absurd houtcome error_ne_ok

/-- A connection looks at most once, and what comes of it is final. Let it be asked nothing
    at first that has to be looked for, while anything else may happen. Then it has not
    looked, and what it tells by itself changes nothing. Let it be asked any such thing
    then, and let anything happen afterwards. Whatever it is asked again, nothing changes
    but what was fetched, and not even that unless it has to read. What it need not read is
    as it was at first, and so is what it has to read in a buffer. If it found nothing, it
    goes on failing with the same error, whatever it is asked. -/
theorem looks_once (l : Locator) (directory : String) (outside : Surroundings)
    (before later : List Event) (first : Inquiry) (hbefore : ∀ q, .inquire q ∉ before) :
    let s := run before ({ locator := l }, .new directory outside)
    let t := run later (behind first.ask s)
    s.1 = { locator := l } ∧ s.1.isConnected = false ∧
    (∀ (g : Glance) (u : Connection × Resolver), behind g.ask u = u) ∧
    (∀ q : Inquiry, q.reads = false → q.ask t = giving (outcome q.ask s) t) ∧
    (t.1.isConnected = true ↔ outcome (Inquiry.ask .connect) s = .ok .done) ∧
    (∀ e : Error, outcome (Inquiry.ask .connect) s = .error e →
      ∀ q : Inquiry, q.ask t = .error e t) ∧
    (∀ q : Inquiry, ∃ fetched, behind q.ask t = (t.1, { t.2 with fetched })) ∧
    (memoryScheme.toList.isPrefixOf l.root.toList →
      ∀ q : Inquiry, outcome q.ask t = outcome q.ask s) := by
  intro s t
  have hs : s.1 = { locator := l } := run_of_quiet before hbefore
  rcases exists_settled s first with ⟨c, r, hstate, hask, hfirst⟩
  -- From the first inquiry on the connection is `c`, and only the resolver around it changes.
  obtain ⟨r', ht⟩ : ∃ r', t = (c, r') := by
    have hlater : t.1 = (behind first.ask s).1 :=
      run_of_settled (by rw [hfirst]; exact hstate) later
    exact ⟨t.2, Prod.ext (hlater.trans hfirst) rfl⟩
  have hconnect := (outcome_congr (hask .connect)).trans (outcome_connect_of_settled hstate r)
  rw [ht]
  refine ⟨hs, by rw [hs]; rfl, fun g u => (glance_gives g u).2, fun q hreads => ?_, ?_,
    fun e he q => ?_, fun q => behind_of_settled hstate q r', fun hmemory q => ?_⟩
  · rw [outcome_congr (hask q)]
    exact ask_of_settled hstate q r r' hreads
  · rw [isConnected_of_settled hstate, hconnect]
    rcases outcome target s with e | found
    · simp only [reduceCtorEq, exists_false, Except.map]
    · simp only [Except.ok.injEq, exists_eq', Except.map]
  · rw [hconnect] at he
    rcases hlooked : outcome target s with e' | found
    · rw [hlooked] at he hstate
      rw [← Except.error.inj he]
      exact ask_of_failed hstate q r'
    · rw [hlooked] at he
      exact absurd he.symm error_ne_ok
  · rw [outcome_congr (hask q)]
    refine outcome_of_settled hstate q r r' fun found hfound => ?_
    have hinside : KeepsInside s.2 :=
      keepsInside_run (upholds_new directory outside named_nil) before
    refine address_of_remembered hmemory hinside (r := s.2) ?_
    rw [← hs]
    exact hfound

/-- A buffer is replaced and all that was kept is dropped, after a connection was asked for
    the length of an entry. -/
theorem looks_once_replaced :
    let l : Locator := { root := "mem:a", archives := [], entry := some [0x61] }
    let before : List Event :=
      [.other (.register "a" ⟨Index.shifted.toArray⟩), .glance .isConnected]
    let later : List Event := [.other (.register "a" ⟨#[]⟩), .other .clear]
    let s := run before ({ locator := l }, .new "lib/" {})
    let t := run later (behind (Inquiry.ask .contentLength) s)
    (∀ q, .inquire q ∉ before) ∧ memoryScheme.toList.isPrefixOf l.root.toList ∧
    s.1.isConnected = false ∧ t.1.isConnected = true ∧
    ∀ q : Inquiry, outcome q.ask t = outcome q.ask s := by
  intro l before later s t
  have hbefore : ∀ q, .inquire q ∉ before := by
    intro q hq
    simp only [before, List.mem_cons, reduceCtorEq, List.not_mem_nil, or_self] at hq
  have hmemory : memoryScheme.toList.isPrefixOf l.root.toList := by decide
  rcases looks_once l "lib/" {} before later .contentLength hbefore with
    ⟨_, hunconnected, _, _, _, _, _, hsame⟩
  exact ⟨hbefore, hmemory, hunconnected, by decide +kernel, hsame hmemory⟩

end Connection

end NestedZip
