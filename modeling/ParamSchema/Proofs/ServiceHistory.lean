import ParamSchema.Proofs.CacheHistory
import ParamSchema.Service

/-!
What the service answers, told by its history alone. Requests are made while files are written and
removed. A request about an entry that is no file does not come to the cache; all others do, so the
cache of the service is the cache of the requests that it hears of (`run_eq`), and what is known of
caches carries over: an entry is answered from the extraction of the files at the first request that
found it a file since it was last dropped (`FirstRequest`).
-/

namespace ParamSchema.Service

open Cache (World)

/-- What can happen to the files and to the service. -/
inductive Event where
  | write (path : Text) (bytes : ByteArray)
  | remove (path : Text)
  | request (request : Request)

/-- The entry that a request is about. Dropping extractions is no request about an entry. -/
def Request.entry? : Request → Option Text
  | .analyze entry => some entry
  | .describe entry _ => some entry
  | .encode entry _ => some entry
  | .invalidate _ => none

def step (w : World) : Event → World
  | .write path bytes => { w with fs := w.fs.write (w.fs.absolute path) bytes }
  | .remove path => { w with fs := w.fs.remove (w.fs.absolute path) }
  | .request r => { w with cache := (handle w.fs w.cache r).2 }

/-- The files and the cache after events, which begin with an empty cache. -/
def run (start : FileSystem) (events : List Event) : World :=
  events.foldl step ⟨start, Cache.empty⟩

/-- The reply to a request after events. -/
def reply (start : FileSystem) (events : List Event) (r : Request) : Except Refusal Answer :=
  (handle (run start events).fs (run start events).cache r).1

/-! ### The history -/

/-- The files after an event. Only writing and removing change them. -/
def filesBehind (fs : FileSystem) : Event → FileSystem
  | .write path bytes => fs.write (fs.absolute path) bytes
  | .remove path => fs.remove (fs.absolute path)
  | .request _ => fs

/-- The files after events. -/
def filesAfter (start : FileSystem) (events : List Event) : FileSystem :=
  events.foldl filesBehind start

/-- An event is a request about an entry with a path, and there is a file at the path. -/
def Event.Asks (fs : FileSystem) (path : Path) : Event → Prop
  | .request r =>
    (∃ entry, r.entry? = some entry ∧ fs.absolute entry = path) ∧ fs.isFile path = true
  | _ => False

/-- An event drops the extraction of a path, if there is one. -/
def Event.Drops (start : FileSystem) (path : Path) : Event → Prop
  | .request (.invalidate entry) => ∀ e, Payload.nonempty? entry = some e → start.absolute e = path
  | _ => False

/-- The event behind the events `before` is the earliest request that found a file at `path` since
the extraction of the path was last dropped: it has not been dropped since, and it was dropped
between every earlier such request and this one. -/
def FirstRequest (start : FileSystem) (path : Path) (events before : List Event) : Prop :=
  ∃ event behind, events = before ++ event :: behind ∧
    event.Asks (filesAfter start before) path ∧
    (∀ e ∈ behind, ¬ e.Drops start path) ∧
    ∀ older earlier between, before = older ++ earlier :: between →
      earlier.Asks (filesAfter start older) path → ∃ e ∈ between, e.Drops start path

/-- What a request is to show of an extraction: the extraction itself, its description or its
payload, as far as that can be written. -/
inductive Shows (start : FileSystem) (extraction : Extraction) : Request → Answer → Prop where
  | analyze {entry : Text} : Shows start extraction (.analyze entry) (.extraction extraction)
  | describe {entry : Text} {root : Option Text} :
      Shows start extraction (.describe entry root)
        (.description (Report.banner (projectRoot start root) extraction.declarations))
  | encode {entry text : Text} {options : Payload.Options} :
      (Payload.ofDeclarations extraction.declarations options).encoded? = some text →
      Shows start extraction (.encode entry options) (.encoded text)

/-! ### What the cache hears of -/

/-- The event of the cache that an event of the service makes. A request about an entry that is no
file makes none. -/
def heard? (fs : FileSystem) : Event → Option Cache.Event
  | .write path bytes => some (.write path bytes)
  | .remove path => some (.remove path)
  | .request (.invalidate entry) =>
    some (((Payload.nonempty? entry).map Cache.Event.invalidate).getD .invalidateAll)
  | .request r => (r.entry?.filter fun entry => fs.isFile (fs.absolute entry)).map .get

/-- The events of the cache that events of the service make. -/
def trace (fs : FileSystem) : List Event → List Cache.Event
  | [] => []
  | event :: events => (heard? fs event).toList ++ trace (filesBehind fs event) events

section

variable {fs start : FileSystem} {path : Path} {events before : List Event} {event : Event}
  {r : Request} {entry : Text}

theorem here_filesBehind : (filesBehind fs event).here = fs.here := by
  cases event <;> rfl

theorem here_filesAfter (fs : FileSystem) (events : List Event) :
    (filesAfter fs events).here = fs.here := by
  induction events generalizing fs with
  | nil => rfl
  | cons event events ih => exact (ih (filesBehind fs event)).trans here_filesBehind

theorem absolute_filesAfter (fs : FileSystem) (events : List Event) (t : Text) :
    (filesAfter fs events).absolute t = fs.absolute t := by
  rw [FileSystem.absolute, FileSystem.absolute, here_filesAfter]

theorem filesAfter_append (more : List Event) :
    filesAfter fs (events ++ more) = filesAfter (filesAfter fs events) more := by
  simp [filesAfter]

theorem trace_append (more : List Event) :
    trace fs (events ++ more) = trace fs events ++ trace (filesAfter fs events) more := by
  induction events generalizing fs with
  | nil => rfl
  | cons event events ih =>
    rw [List.cons_append, trace, trace, ih, List.append_assoc]
    rfl

/-! ### One request -/

theorem handle_of_not_isFile (cache : Cache) (about : r.entry? = some entry)
    (h : fs.isFile (fs.absolute entry) = false) :
    handle fs cache r = (.error (.invalidEntry (fs.absolute entry)), cache) := by
  cases r with
  | invalidate _ => cases about
  | _ => cases about; simp [handle, answer, extraction, h]

/-- A request about a file is answered from the extraction of the cache. -/
theorem handle_of_isFile (cache : Cache) (about : r.entry? = some entry)
    (h : fs.isFile (fs.absolute entry) = true) :
    (handle fs cache r).2 = (cache.get fs (fs.absolute entry)).2 ∧
      (∀ path, (handle fs cache r).1 ≠ .error (.invalidEntry path)) ∧
      ∀ a, (handle fs cache r).1 = .ok a ↔
        Shows fs (cache.get fs (fs.absolute entry)).1 r a := by
  cases r with
  | invalidate _ => cases about
  | analyze _ =>
    cases about
    simp only [handle, answer, extraction, h, if_true, Except.ok.injEq]
    refine ⟨trivial, by simp, fun a => ⟨?_, ?_⟩⟩
    · rintro rfl
      exact .analyze
    · rintro ⟨⟩
      rfl
  | describe _ root =>
    cases about
    simp only [handle, answer, extraction, h, if_true, Except.ok.injEq]
    refine ⟨trivial, by simp, fun a => ⟨?_, ?_⟩⟩
    · rintro rfl
      exact .describe
    · rintro ⟨⟩
      rfl
  | encode _ options =>
    cases about
    simp only [handle, answer, extraction, h, if_true]
    refine ⟨trivial, ?_, fun a => ?_⟩
    · intro path
      split <;> simp
    · cases written : (Payload.ofDeclarations
          (cache.get fs (fs.absolute entry)).1.declarations options).encoded? with
      | none =>
        constructor
        · intro no
          cases no
        · rintro ⟨⟩
          simp_all
      | some text =>
        constructor
        · intro yes
          cases yes
          exact .encode written
        · rintro ⟨⟩
          simp_all

theorem heard?_about (fs : FileSystem) (about : r.entry? = some entry) :
    heard? fs (.request r) =
      if fs.isFile (fs.absolute entry) = true then some (.get entry) else none := by
  have asks : heard? fs (.request r) =
      ((some entry).filter fun entry => fs.isFile (fs.absolute entry)).map .get := by
    cases r with
    | invalidate _ => cases about
    | _ => cases about; rfl
  rw [asks, Option.filter_some]
  split <;> rfl

/-- Handling an event is what the cache hears of it. -/
theorem step_eq (w : World) (event : Event) :
    step w event = (heard? w.fs event).toList.foldl World.step w := by
  cases event with
  | write _ _ => rfl
  | remove _ => rfl
  | request r =>
    cases about : r.entry? with
    | none =>
      cases r with
      | invalidate entry =>
        cases given : Payload.nonempty? entry <;> simp [step, handle, heard?, given, World.step]
      | _ => cases about
    | some entry =>
      rw [heard?_about w.fs about]
      cases file : w.fs.isFile (w.fs.absolute entry) with
      | false => simp [step, handle_of_not_isFile w.cache about file]
      | true => simp [step, (handle_of_isFile w.cache about file).1, World.step]

theorem fs_step (w : World) (event : Event) : (step w event).fs = filesBehind w.fs event := by
  cases event <;> rfl

/-! ### Events and what the cache hears of them -/

/-- The cache hears of a request for an extraction just when an event asks for it. -/
theorem gets_iff (here : fs.here = start.here) :
    (∃ g, heard? fs event = some g ∧ g.Gets start path) ↔ event.Asks fs path := by
  have absolute (t : Text) : fs.absolute t = start.absolute t := by
    rw [FileSystem.absolute, FileSystem.absolute, here]
  cases event with
  | write _ _ => simp [heard?, Cache.Event.Gets, Event.Asks]
  | remove _ => simp [heard?, Cache.Event.Gets, Event.Asks]
  | request r =>
    cases about : r.entry? with
    | none =>
      cases r with
      | invalidate entry =>
        cases given : Payload.nonempty? entry <;>
          simp [heard?, given, Cache.Event.Gets, Event.Asks, Request.entry?]
      | _ => cases about
    | some entry =>
      rw [heard?_about fs about]
      constructor
      · rintro ⟨g, heard, gets⟩
        split at heard
        · next file =>
          cases heard
          obtain rfl : start.absolute entry = path := gets
          exact ⟨⟨entry, about, absolute entry⟩, absolute entry ▸ file⟩
        · cases heard
      · rintro ⟨⟨entry', about', rfl⟩, file⟩
        cases about.symm.trans about'
        exact ⟨.get entry, if_pos file, (absolute entry).symm⟩

/-- The cache hears of it when an event drops the extraction of a path. -/
theorem drops_iff (fs : FileSystem) :
    (∃ g ∈ heard? fs event, g.Drops start path) ↔ event.Drops start path := by
  cases event with
  | write _ _ => simp [heard?, Cache.Event.Drops, Event.Drops]
  | remove _ => simp [heard?, Cache.Event.Drops, Event.Drops]
  | request r =>
    cases about : r.entry? with
    | none =>
      cases r with
      | invalidate entry =>
        cases given : Payload.nonempty? entry <;>
          simp [heard?, given, Cache.Event.Drops, Event.Drops]
      | _ => cases about
    | some entry =>
      rw [heard?_about fs about]
      constructor
      · rintro ⟨g, heard, drops⟩
        split at heard
        · cases heard
          cases drops
        · cases heard
      · intro drops
        cases r with
        | invalidate _ => cases about
        | _ => cases drops

theorem exists_drops_trace_iff :
    (∃ g ∈ trace fs events, g.Drops start path) ↔ ∃ e ∈ events, e.Drops start path := by
  induction events generalizing fs with
  | nil => simp [trace]
  | cons event events ih =>
    simp only [trace, List.mem_append, Option.mem_toList, or_and_right, exists_or,
      List.mem_cons, exists_eq_left, ih]
    rw [← drops_iff fs]
    simp only [Option.mem_def]

theorem trace_split {g : Cache.Event} (heard : heard? (filesAfter fs before) event = some g)
    (behind : List Event) :
    trace fs (before ++ event :: behind) =
      trace fs before ++ g :: trace (filesAfter fs (before ++ [event])) behind := by
  rw [trace_append, trace, heard, filesAfter_append]
  rfl

/-- An event that the cache heard of was made by an event of the service. -/
theorem exists_of_trace_eq {g : Cache.Event} {front back : List Cache.Event}
    (h : trace fs events = front ++ g :: back) :
    ∃ before event behind, events = before ++ event :: behind ∧ trace fs before = front ∧
      heard? (filesAfter fs before) event = some g ∧
      trace (filesAfter fs (before ++ [event])) behind = back := by
  induction events generalizing fs front with
  | nil => simp [trace] at h
  | cons event events ih =>
    rw [trace] at h
    cases heard : heard? fs event with
    | none =>
      rw [heard] at h
      obtain ⟨before, event', behind, rfl, rfl, same, rfl⟩ := ih h
      exact ⟨event :: before, event', behind, rfl, by simp [trace, heard], same, rfl⟩
    | some g' =>
      rw [heard] at h
      cases front with
      | nil =>
        obtain ⟨rfl, rest⟩ := List.cons.inj h
        exact ⟨[], event, events, rfl, rfl, heard, rest⟩
      | cons g'' front =>
        obtain ⟨rfl, rest⟩ := List.cons.inj h
        obtain ⟨before, event', behind, rfl, rfl, same, rfl⟩ := ih rest
        exact ⟨event :: before, event', behind, rfl, by simp [trace, heard], same, rfl⟩

/-- The first request for a path that the cache hears of is the first that found a file there. -/
theorem firstGet_trace {front : List Cache.Event} :
    Cache.FirstGet start path (trace start events) front ↔
      ∃ before, trace start before = front ∧ FirstRequest start path events before := by
  constructor
  · rintro ⟨g, back, split, gets, kept, first⟩
    obtain ⟨before, event, behind, rfl, rfl, heard, rfl⟩ := exists_of_trace_eq split
    refine ⟨before, rfl, event, behind, rfl,
      (gets_iff (here_filesAfter start _)).mp ⟨g, heard, gets⟩, ?_, ?_⟩
    · intro e he drops
      obtain ⟨g', mem, drops'⟩ := exists_drops_trace_iff.mpr ⟨e, he, drops⟩
      exact kept g' mem drops'
    · rintro older earlier between rfl asks
      obtain ⟨g', heard', gets'⟩ := (gets_iff (here_filesAfter start _)).mpr asks
      exact exists_drops_trace_iff.mp (first _ g' _ (trace_split heard' between) gets')
  · rintro ⟨before, rfl, event, behind, rfl, asks, kept, first⟩
    obtain ⟨g, heard, gets⟩ := (gets_iff (here_filesAfter start _)).mpr asks
    refine ⟨g, _, trace_split heard behind, gets, ?_, ?_⟩
    · intro g' mem drops
      obtain ⟨e, he, drops'⟩ := exists_drops_trace_iff.mp ⟨g', mem, drops⟩
      exact kept e he drops'
    · intro front g' back split gets'
      obtain ⟨older, earlier, between, rfl, rfl, heard', rfl⟩ := exists_of_trace_eq split
      exact exists_drops_trace_iff.mpr
        (first older earlier between rfl
          ((gets_iff (here_filesAfter start _)).mp ⟨g', heard', gets'⟩))

/-! ### Runs -/

theorem foldl_step (w : World) :
    events.foldl step w = (trace w.fs events).foldl World.step w := by
  induction events generalizing w with
  | nil => rfl
  | cons event events ih =>
    rw [List.foldl_cons, ih, fs_step, trace, List.foldl_append, step_eq]

/-- The cache of the service is the cache of the events that it hears of. -/
theorem run_eq : run start events = World.run start (trace start events) :=
  foldl_step _

theorem fs_run : (run start events).fs = filesAfter start events := by
  have files (w : World) : (events.foldl step w).fs = events.foldl filesBehind w.fs := by
    induction events generalizing w with
    | nil => rfl
    | cons event events ih => rw [List.foldl_cons, List.foldl_cons, ih, fs_step]
  exact files _

theorem filesAfter_trace :
    Cache.filesAfter start (trace start events) = filesAfter start events := by
  rw [← World.fs_run, ← run_eq, fs_run]

/-- A run keeps for a path the extraction of the files at the first request that found a file there,
and nothing for a path without one. -/
theorem get?_run_eq_some_iff {result : Extraction} :
    (run start events).cache.results.get? path = some result ↔
      ∃ before, FirstRequest start path events before ∧
        result = Extraction.ofEntry (filesAfter start before) path := by
  rw [run_eq, World.get?_run_eq_some_iff]
  simp only [firstGet_trace]
  constructor
  · rintro ⟨_, ⟨before, rfl, first⟩, same⟩
    exact ⟨before, first, filesAfter_trace ▸ same⟩
  · rintro ⟨before, first, same⟩
    exact ⟨_, ⟨before, rfl, first⟩, filesAfter_trace.symm ▸ same⟩

/-- There is at most one first request. -/
theorem FirstRequest.unique {before' : List Event} (h : FirstRequest start path events before)
    (h' : FirstRequest start path events before') : before = before' := by
  have traces : trace start before = trace start before' :=
    (firstGet_trace.mpr ⟨before, rfl, h⟩).unique (firstGet_trace.mpr ⟨before', rfl, h'⟩)
  -- The cache hears of both requests, so neither can stand before the other.
  have notBefore {b b' : List Event} {e : Event} {between : List Event}
      (asks : e.Asks (filesAfter start b) path) (split : b' = b ++ e :: between)
      (same : trace start b = trace start b') : False := by
    obtain ⟨g, heard, _⟩ := (gets_iff (here_filesAfter start _)).mpr asks
    rw [split, trace_split heard] at same
    simp at same
  obtain ⟨event, behind, split, asks, _⟩ := h
  obtain ⟨event', behind', split', asks', _⟩ := h'
  rcases List.append_eq_append_iff.mp (split.symm.trans split') with
    ⟨between, rfl, rest⟩ | ⟨between, rfl, rest⟩
  · cases between with
    | nil => simp
    | cons e between =>
      obtain ⟨rfl, _⟩ := List.cons.inj rest
      exact (notBefore asks rfl traces).elim
  · cases between with
    | nil => simp
    | cons e between =>
      obtain ⟨rfl, _⟩ := List.cons.inj rest
      exact (notBefore asks' rfl traces.symm).elim

theorem FirstRequest.append {more : List Event} (h : FirstRequest start path events before)
    (kept : ∀ e ∈ more, ¬ e.Drops start path) :
    FirstRequest start path (events ++ more) before := by
  obtain ⟨event, behind, rfl, asks, kept', first⟩ := h
  refine ⟨event, behind ++ more, by simp, asks, ?_, first⟩
  intro e he
  rcases List.mem_append.mp he with he | he
  · exact kept' e he
  · exact kept e he

theorem shows_filesAfter (start : FileSystem) (events : List Event) {extraction : Extraction}
    {a : Answer} :
    Shows (filesAfter start events) extraction r a ↔ Shows start extraction r a := by
  have root (given : Option Text) :
      projectRoot (filesAfter start events) given = projectRoot start given := by
    simp only [projectRoot, absolute_filesAfter, here_filesAfter]
  constructor
  · rintro (_ | _ | written)
    · exact .analyze
    · exact root _ ▸ .describe
    · exact .encode written
  · rintro (_ | _ | written)
    · exact .analyze
    · exact root _ ▸ .describe
    · exact .encode written

theorem run_snoc : run start (events ++ [event]) = step (run start events) event := by
  simp [run]

/-- A request that finds no file is refused and changes nothing. -/
theorem reply_of_not_isFile (about : r.entry? = some entry)
    (missing : (filesAfter start events).isFile (start.absolute entry) = false) :
    reply start events r = .error (.invalidEntry (start.absolute entry)) ∧
      (run start (events ++ [.request r])).cache = (run start events).cache := by
  rw [← absolute_filesAfter start events, ← fs_run] at missing
  have refused := handle_of_not_isFile (run start events).cache about missing
  rw [reply, run_snoc, step, refused, fs_run, absolute_filesAfter]
  exact ⟨rfl, rfl⟩

/-- A request that finds a file is answered from the extraction of the files at the first request
for it. -/
theorem reply_of_isFile (about : r.entry? = some entry)
    (file : (filesAfter start events).isFile (start.absolute entry) = true) :
    ∃ before, FirstRequest start (start.absolute entry) (events ++ [.request r]) before ∧
      (∀ path, reply start events r ≠ .error (.invalidEntry path)) ∧
      ∀ a, reply start events r = .ok a ↔
        Shows start (Extraction.ofEntry (filesAfter start before) (start.absolute entry)) r a := by
  rw [← absolute_filesAfter start events, ← fs_run] at file
  obtain ⟨_, admitted, shows⟩ := handle_of_isFile (run start events).cache about file
  have kept : (run start (events ++ [.request r])).cache.results.get? (start.absolute entry) =
      some ((run start events).cache.get (run start events).fs
        ((run start events).fs.absolute entry)).1 := by
    have heard : trace (filesAfter start events) [.request r] = [.get entry] := by
      rw [trace, heard?_about _ about, ← fs_run, if_pos file]
      rfl
    have gets : Cache.Event.Gets (World.run start (trace start events)).fs (start.absolute entry)
        (.get entry) := World.absolute_run entry
    rw [run_eq, trace_append, heard, World.run_snoc, World.get?_step_of_gets gets, run_eq,
      ← World.extraction, World.extraction_eq, World.absolute_run]
  obtain ⟨before, first, answer⟩ := get?_run_eq_some_iff.mp kept
  refine ⟨before, first, admitted, fun a => ?_⟩
  rw [← answer, ← shows_filesAfter start events, ← fs_run]
  exact shows a

end

/-- The replies of the service follow its history. A request about an entry is refused as invalid
just when there is no file at its path, and then the cache stays as it is. Every other request is
answered, under any spelling of the path, from the extraction of the files at the first request that
found a file there since the extraction was last dropped, whatever became of the files; so any two
answers about one path without a drop between them show the same extraction. Dropping extractions is
answered with the number of paths that still have one. -/
theorem replies_follow_history (start : FileSystem) (events : List Event) :
    (∀ r entry, r.entry? = some entry →
      (∀ path, reply start events r = .error (.invalidEntry path) ↔
        path = start.absolute entry ∧ (filesAfter start events).isFile path = false) ∧
      ((filesAfter start events).isFile (start.absolute entry) = false →
        (run start (events ++ [.request r])).cache = (run start events).cache)) ∧
    (∀ r entry, r.entry? = some entry →
      (filesAfter start events).isFile (start.absolute entry) = true →
      ∃ before, FirstRequest start (start.absolute entry) (events ++ [.request r]) before ∧
        (∀ other, FirstRequest start (start.absolute entry) (events ++ [.request r]) other →
          other = before) ∧
        ∀ a, reply start events r = .ok a ↔
          Shows start (Extraction.ofEntry (filesAfter start before) (start.absolute entry)) r a) ∧
    (∀ before r between r' entry entry' a a', events = before ++ .request r :: between →
      r.entry? = some entry → r'.entry? = some entry' →
      start.absolute entry = start.absolute entry' →
      (∀ e ∈ between, ¬ e.Drops start (start.absolute entry)) →
      reply start before r = .ok a → reply start events r' = .ok a' →
      ∃ extraction, extraction.entry = start.absolute entry ∧
        Shows start extraction r a ∧ Shows start extraction r' a') ∧
    (∀ entry, ∃ paths : List Path, paths.Nodup ∧
      (∀ path, path ∈ paths ↔
        ∃ before, FirstRequest start path (events ++ [.request (.invalidate entry)]) before) ∧
      reply start events (.invalidate entry) = .ok (.cached paths.length)) := by
  refine ⟨?_, ?_, ?_, ?_⟩
  · intro r entry about
    refine ⟨fun path => ?_, fun missing => (reply_of_not_isFile about missing).2⟩
    cases file : (filesAfter start events).isFile (start.absolute entry) with
    | true =>
      obtain ⟨_, _, admitted, _⟩ := reply_of_isFile about file
      refine ⟨fun refused => absurd refused (admitted path), ?_⟩
      rintro ⟨rfl, missing⟩
      rw [file] at missing
      cases missing
    | false =>
      rw [(reply_of_not_isFile about file).1]
      constructor
      · intro same
        cases same
        exact ⟨rfl, file⟩
      · rintro ⟨rfl, _⟩
        rfl
  · intro r entry about file
    obtain ⟨before, first, _, shows⟩ := reply_of_isFile about file
    exact ⟨before, first, fun _ other => other.unique first, shows⟩
  · rintro before r between r' entry entry' a a' rfl about about' same kept answered answered'
    have file {events : List Event} {r : Request} {entry : Text} {a : Answer}
        (about : r.entry? = some entry) (answered : reply start events r = .ok a) :
        (filesAfter start events).isFile (start.absolute entry) = true := by
      by_contra missing
      rw [(reply_of_not_isFile about (Bool.not_eq_true _ ▸ missing)).1] at answered
      cases answered
    obtain ⟨b, first, _, shows⟩ := reply_of_isFile about (file about answered)
    obtain ⟨b', first', _, shows'⟩ := reply_of_isFile about' (file about' answered')
    -- The first request before the earlier answer is still the first one before the later answer.
    have undropped : ∀ e ∈ between ++ [.request r'], ¬ e.Drops start (start.absolute entry) := by
      intro e he
      rcases List.mem_append.mp he with he | he
      · exact kept e he
      · obtain rfl := List.mem_singleton.mp he
        cases r' with
        | invalidate _ => cases about'
        | _ => exact id
    have later := first.append undropped
    rw [List.append_assoc, List.singleton_append, same] at later
    rw [List.append_assoc, List.cons_append] at first'
    obtain rfl := later.unique first'
    refine ⟨_, rfl, (shows a).mp answered, ?_⟩
    rw [same]
    exact (shows' a').mp answered'
  · intro entry
    refine ⟨(run start (events ++ [.request (.invalidate entry)])).cache.results.keys, ?_, ?_, ?_⟩
    · rw [run_eq]
      exact World.nodup_keys_run
    · intro path
      rw [Table.mem_keys_iff]
      simp only [get?_run_eq_some_iff]
      constructor
      · rintro ⟨_, before, first, _⟩
        exact ⟨before, first⟩
      · rintro ⟨before, first⟩
        exact ⟨_, before, first, rfl⟩
    · rw [run_snoc]
      simp [reply, handle, step, Cache.size, Table.keys]

end ParamSchema.Service
