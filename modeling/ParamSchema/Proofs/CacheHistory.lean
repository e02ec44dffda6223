import Mathlib.Data.List.Induction
import ParamSchema.Declaration.Cache
import ParamSchema.Proofs.Table

/-!
What a cache answers, told by its history alone. Files are written and removed, extractions are
asked for and dropped, in any order and under any spelling of the paths. An extraction that is asked
for is the one of the files as they were when it was first asked for since it was last dropped
(`FirstGet`). The history specification reads only the events; no cache occurs in it.
-/

namespace ParamSchema.Cache

/-- What can happen to the files and to the cache. Paths are texts, as callers spell them. -/
inductive Event where
  | write (path : Text) (bytes : ByteArray)
  | remove (path : Text)
  | get (entry : Text)
  | invalidate (entry : Text)
  | invalidateAll
  | contains (entry : Text)

/-- The files with a cache of extractions. -/
structure World where
  fs : FileSystem
  cache : Cache

namespace World

/-- The extraction that is answered for an entry. -/
def extraction (w : World) (entry : Text) : Extraction :=
  (w.cache.get w.fs (w.fs.absolute entry)).1

/-- Whether an extraction is kept for an entry. -/
def contains (w : World) (entry : Text) : Bool := w.cache.contains (w.fs.absolute entry)

def step (w : World) : Event → World
  | .write path bytes => { w with fs := w.fs.write (w.fs.absolute path) bytes }
  | .remove path => { w with fs := w.fs.remove (w.fs.absolute path) }
  | .get entry => { w with cache := (w.cache.get w.fs (w.fs.absolute entry)).2 }
  | .invalidate entry => { w with cache := w.cache.invalidate (w.fs.absolute entry) }
  | .invalidateAll => { w with cache := Cache.empty }
  | .contains _ => w

/-- The world after events, which begin with an empty cache. -/
def run (start : FileSystem) (events : List Event) : World :=
  events.foldl step ⟨start, Cache.empty⟩

end World

/-! ### The history -/

/-- The files after an event. Only writing and removing change them. -/
def filesBehind (fs : FileSystem) : Event → FileSystem
  | .write path bytes => fs.write (fs.absolute path) bytes
  | .remove path => fs.remove (fs.absolute path)
  | _ => fs

/-- The files after events. -/
def filesAfter (start : FileSystem) (events : List Event) : FileSystem :=
  events.foldl filesBehind start

namespace Event

variable (start : FileSystem) (path : Path)

/-- An event asks for the extraction of a path. -/
def Gets : Event → Prop
  | .get entry => start.absolute entry = path
  | _ => False

/-- An event drops the extraction of a path, if there is one. -/
def Drops : Event → Prop
  | .invalidate entry => start.absolute entry = path
  | .invalidateAll => True
  | _ => False

end Event

/-- The event behind the events `before` is the earliest that asks for the extraction of `path`
since that was last dropped: it has not been dropped since, and it was dropped between every earlier
request for it and this one. -/
def FirstGet (start : FileSystem) (path : Path) (events before : List Event) : Prop :=
  ∃ event behind, events = before ++ event :: behind ∧ event.Gets start path ∧
    (∀ e ∈ behind, ¬ e.Drops start path) ∧
    ∀ older earlier between, before = older ++ earlier :: between → earlier.Gets start path →
      ∃ e ∈ between, e.Drops start path

section

variable {start : FileSystem} {path : Path} {events before : List Event} {event : Event}

theorem Event.Gets.not_drops (h : event.Gets start path) : ¬ event.Drops start path := by
  cases event with
  | get entry => exact id
  | _ => exact False.elim h

/-- Where there is a request that was not dropped since, there is a first one. -/
theorem exists_firstGet {older between : List Event} (split : events = older ++ event :: between)
    (gets : event.Gets start path) (kept : ∀ e ∈ between, ¬ e.Drops start path) :
    ∃ before, FirstGet start path events before := by
  induction h : older.length using Nat.strongRecOn generalizing older event between with
  | _ n ih =>
    by_cases first : ∀ older' earlier between', older = older' ++ earlier :: between' →
        earlier.Gets start path → ∃ e ∈ between', e.Drops start path
    · exact ⟨older, event, between, split, gets, kept, first⟩
    · push Not at first
      obtain ⟨older', earlier, between', rfl, gets', kept'⟩ := first
      have shorter : older'.length < n := by
        rw [← h, List.length_append, List.length_cons]
        omega
      -- Between the two requests lie the events before the later one, and it drops nothing itself.
      have kept'' : ∀ e ∈ between' ++ event :: between, ¬ e.Drops start path := by
        intro e he
        rcases List.mem_append.mp he with he | he
        · exact kept' e he
        · rcases List.mem_cons.mp he with rfl | he
          · exact gets.not_drops
          · exact kept e he
      exact ih older'.length shorter (by rw [split, List.append_assoc]; rfl) gets' kept'' rfl

theorem not_firstGet_nil : ¬ FirstGet start path [] before := by
  rintro ⟨event, behind, split, _⟩
  simp at split

/-- One more event keeps the first request unless it drops it, and is a first request itself when
there was none. -/
theorem firstGet_snoc :
    FirstGet start path (events ++ [event]) before ↔
      (FirstGet start path events before ∧ ¬ event.Drops start path) ∨
        (event.Gets start path ∧ before = events ∧ ¬ ∃ b, FirstGet start path events b) := by
  constructor
  · rintro ⟨e, behind, split, gets, kept, first⟩
    rcases List.eq_nil_or_concat behind with rfl | ⟨behind', last, rfl⟩
    · obtain ⟨rfl, heq⟩ := List.append_inj' split rfl
      cases heq
      refine .inr ⟨gets, rfl, ?_⟩
      rintro ⟨b, e', behind, rfl, gets', kept', _⟩
      -- An earlier request would have been dropped, so it is no first request any more.
      obtain ⟨d, hd, drops⟩ := first b e' behind rfl gets'
      exact kept' d hd drops
    · rw [List.concat_eq_append] at split kept
      have assoc : before ++ e :: (behind' ++ [last]) = before ++ e :: behind' ++ [last] := by simp
      obtain ⟨rfl, heq⟩ := List.append_inj' (split.trans assoc) rfl
      cases heq
      refine .inl ⟨⟨e, behind', rfl, gets, ?_, first⟩, ?_⟩
      · intro d hd
        exact kept d (List.mem_append_left _ hd)
      · exact kept event (List.mem_append_right _ (List.mem_singleton_self _))
  · rintro (⟨⟨e, behind, rfl, gets, kept, first⟩, keeps⟩ | ⟨gets, rfl, none⟩)
    · refine ⟨e, behind ++ [event], by simp, gets, ?_, first⟩
      intro d hd
      rcases List.mem_append.mp hd with hd | hd
      · exact kept d hd
      · exact List.mem_singleton.mp hd ▸ keeps
    · refine ⟨event, [], rfl, gets, by simp, ?_⟩
      intro older earlier between split gets'
      by_contra kept
      push Not at kept
      exact none (exists_firstGet split gets' kept)

/-- There is at most one first request. -/
theorem FirstGet.unique {before' : List Event} (h : FirstGet start path events before)
    (h' : FirstGet start path events before') : before = before' := by
  induction events using List.reverseRecOn generalizing before before' with
  | nil => exact absurd h not_firstGet_nil
  | append_singleton events event ih =>
    rcases firstGet_snoc.mp h with ⟨old, _⟩ | ⟨_, rfl, none⟩
    · rcases firstGet_snoc.mp h' with ⟨old', _⟩ | ⟨_, _, none⟩
      · exact ih old old'
      · exact absurd ⟨before, old⟩ none
    · rcases firstGet_snoc.mp h' with ⟨old', _⟩ | ⟨_, same, _⟩
      · exact absurd ⟨before', old'⟩ none
      · exact same.symm

end

/-! ### One event -/

namespace World

variable {w : World} {path : Path} {event : Event}

theorem here_step : (w.step event).fs.here = w.fs.here := by
  cases event <;> rfl

theorem get?_step_of_drops (h : event.Drops w.fs path) :
    (w.step event).cache.results.get? path = none := by
  cases event with
  | invalidate entry =>
    have same : w.fs.absolute entry = path := h
    simp [step, Cache.invalidate, Table.get?_erase, same]
  | invalidateAll => rfl
  | _ => exact False.elim h

theorem get?_step_of_gets (h : event.Gets w.fs path) :
    (w.step event).cache.results.get? path =
      some ((w.cache.results.get? path).getD (Extraction.ofEntry w.fs path)) := by
  cases event with
  | get entry =>
    obtain rfl : w.fs.absolute entry = path := h
    cases kept : w.cache.results.get? (w.fs.absolute entry) with
    | some result => simp [step, Cache.get, kept]
    | none => simp [step, Cache.get, kept, Table.get?_put]
  | _ => exact False.elim h

theorem get?_step_of_neither (hg : ¬ event.Gets w.fs path) (hd : ¬ event.Drops w.fs path) :
    (w.step event).cache.results.get? path = w.cache.results.get? path := by
  cases event with
  | get entry =>
    have other : (path == w.fs.absolute entry) = false := beq_eq_false_iff_ne.mpr (Ne.symm hg)
    cases kept : w.cache.results.get? (w.fs.absolute entry) with
    | some result => simp [step, Cache.get, kept]
    | none => simp [step, Cache.get, kept, Table.get?_put, other]
  | invalidate entry =>
    have other : (path == w.fs.absolute entry) = false := beq_eq_false_iff_ne.mpr (Ne.symm hd)
    simp [step, Cache.invalidate, Table.get?_erase, other]
  | invalidateAll => exact absurd trivial hd
  | _ => rfl

theorem nodup_keys_step (h : w.cache.results.keys.Nodup) :
    (w.step event).cache.results.keys.Nodup := by
  cases event with
  | get entry =>
    cases kept : w.cache.results.get? (w.fs.absolute entry) with
    | some result => simpa [step, Cache.get, kept] using h
    | none => simpa [step, Cache.get, kept] using Table.nodup_keys_put h
  | invalidate entry => exact Table.nodup_keys_erase h
  | invalidateAll => exact List.nodup_nil
  | _ => exact h

theorem extraction_eq (w : World) (entry : Text) :
    w.extraction entry = (w.cache.results.get? (w.fs.absolute entry)).getD
      (Extraction.ofEntry w.fs (w.fs.absolute entry)) := by
  cases kept : w.cache.results.get? (w.fs.absolute entry) <;> simp [extraction, Cache.get, kept]

/-! ### Runs -/

section

variable {start : FileSystem} {events : List Event}

theorem run_snoc : run start (events ++ [event]) = (run start events).step event := by
  simp [run]

theorem here_run : (run start events).fs.here = start.here := by
  induction events using List.reverseRecOn with
  | nil => rfl
  | append_singleton events event ih => rw [run_snoc, here_step, ih]

theorem absolute_run (t : Text) : (run start events).fs.absolute t = start.absolute t := by
  rw [FileSystem.absolute, FileSystem.absolute, here_run]

theorem gets_run : event.Gets (run start events).fs path ↔ event.Gets start path := by
  cases event <;> simp [Event.Gets, absolute_run]

theorem drops_run : event.Drops (run start events).fs path ↔ event.Drops start path := by
  cases event <;> simp [Event.Drops, absolute_run]

theorem fs_run : (run start events).fs = filesAfter start events := by
  induction events using List.reverseRecOn with
  | nil => rfl
  | append_singleton events event ih =>
    have last : filesAfter start (events ++ [event]) =
        filesBehind (filesAfter start events) event := by
      simp [filesAfter]
    rw [run_snoc, last, ← ih]
    cases event <;> rfl

theorem nodup_keys_run : (run start events).cache.results.keys.Nodup := by
  induction events using List.reverseRecOn with
  | nil => exact List.nodup_nil
  | append_singleton events event ih => rw [run_snoc]; exact nodup_keys_step ih

/-- A run keeps for a path the extraction of the files at the first request, and nothing for a path
without one. -/
theorem get?_run_eq_some_iff {result : Extraction} :
    (run start events).cache.results.get? path = some result ↔
      ∃ before, FirstGet start path events before ∧
        result = Extraction.ofEntry (filesAfter start before) path := by
  induction events using List.reverseRecOn generalizing result with
  | nil =>
    constructor
    · intro h
      cases h
    · rintro ⟨before, first, _⟩
      exact absurd first not_firstGet_nil
  | append_singleton events event ih =>
    rw [run_snoc]
    -- The last event drops the path, requests it, or does not touch it.
    by_cases drops : event.Drops start path
    · have gets : ¬ event.Gets start path := fun h => h.not_drops drops
      simp [get?_step_of_drops (drops_run.mpr drops), firstGet_snoc, drops, gets]
    · by_cases gets : event.Gets start path
      · rw [get?_step_of_gets (gets_run.mpr gets), fs_run]
        cases kept : (run start events).cache.results.get? path with
        | some old =>
          obtain ⟨before, first, rfl⟩ := ih.mp kept
          constructor
          · intro h
            cases h
            exact ⟨before, firstGet_snoc.mpr (.inl ⟨first, drops⟩), rfl⟩
          · rintro ⟨before', first', rfl⟩
            rw [first'.unique (firstGet_snoc.mpr (.inl ⟨first, drops⟩))]
            rfl
        | none =>
          have noFirst : ¬ ∃ b, FirstGet start path events b := by
            rintro ⟨b, first⟩
            rw [ih.mpr ⟨b, first, rfl⟩] at kept
            cases kept
          have isFirst := firstGet_snoc.mpr (.inr ⟨gets, rfl, noFirst⟩)
          constructor
          · intro h
            cases h
            exact ⟨events, isFirst, rfl⟩
          · rintro ⟨before, first, rfl⟩
            rw [first.unique isFirst]
            rfl
      · rw [get?_step_of_neither (mt gets_run.mp gets) (mt drops_run.mp drops), ih]
        simp [firstGet_snoc, drops, gets]

/-- What is kept for a path after some events depends on nothing that was kept for other paths. -/
theorem get?_foldl_congr {w w' : World} (files : w.fs = w'.fs)
    (same : w.cache.results.get? path = w'.cache.results.get? path) (more : List Event) :
    (more.foldl step w).fs = (more.foldl step w').fs ∧
      (more.foldl step w).cache.results.get? path =
        (more.foldl step w').cache.results.get? path := by
  induction more generalizing w w' with
  | nil => exact ⟨files, same⟩
  | cons event more ih =>
    have files' : (w.step event).fs = (w'.step event).fs := by cases event <;> simp [step, files]
    refine ih files' ?_
    by_cases drops : event.Drops w.fs path
    · rw [get?_step_of_drops drops, get?_step_of_drops (files ▸ drops)]
    · by_cases gets : event.Gets w.fs path
      · rw [get?_step_of_gets gets, get?_step_of_gets (files ▸ gets), same, files]
      · rw [get?_step_of_neither gets drops,
          get?_step_of_neither (files ▸ gets) (files ▸ drops), same]

end

end World

/-- A cache refines its history. Whatever happened before, an entry is answered by the extraction,
under its absolute path, of the files at the first request for it, where the request that is being
answered counts too and there is just one first request. The cache contains the paths with a first
request, its size is their number, and dropping an entry changes no later answer for another
path. -/
theorem answers_follow_history (start : FileSystem) (events : List Event) :
    (∀ entry, ∃ before,
      FirstGet start (start.absolute entry) (events ++ [.get entry]) before ∧
      (∀ other, FirstGet start (start.absolute entry) (events ++ [.get entry]) other →
        other = before) ∧
      ((World.run start events).extraction entry).entry = start.absolute entry ∧
      (World.run start events).extraction entry =
        Extraction.ofEntry (filesAfter start before) (start.absolute entry)) ∧
    (∀ entry, (World.run start events).contains entry = true ↔
      ∃ before, FirstGet start (start.absolute entry) events before) ∧
    (∃ paths : List Path, paths.Nodup ∧
      (∀ path, path ∈ paths ↔ ∃ before, FirstGet start path events before) ∧
      (World.run start events).cache.size = paths.length) ∧
    (∀ entry other more, start.absolute other ≠ start.absolute entry →
      (World.run start (events ++ .invalidate entry :: more)).extraction other =
        (World.run start (events ++ more)).extraction other ∧
      (World.run start (events ++ .invalidate entry :: more)).contains other =
        (World.run start (events ++ more)).contains other) := by
  refine ⟨?_, ?_, ?_, ?_⟩
  · intro entry
    -- The answer is what the cache keeps behind one more request.
    have kept : (World.run start (events ++ [.get entry])).cache.results.get?
        (start.absolute entry) = some ((World.run start events).extraction entry) := by
      have gets : Event.Gets (World.run start events).fs (start.absolute entry) (.get entry) :=
        World.absolute_run entry
      rw [World.run_snoc, World.extraction_eq, World.absolute_run, World.get?_step_of_gets gets]
    obtain ⟨before, first, answer⟩ := World.get?_run_eq_some_iff.mp kept
    exact ⟨before, first, fun b h => h.unique first, by rw [answer]; rfl, answer⟩
  · intro entry
    rw [World.contains, Cache.contains, Table.has_iff, World.absolute_run]
    constructor
    · rintro ⟨result, kept⟩
      obtain ⟨before, first, _⟩ := World.get?_run_eq_some_iff.mp kept
      exact ⟨before, first⟩
    · rintro ⟨before, first⟩
      exact ⟨_, World.get?_run_eq_some_iff.mpr ⟨before, first, rfl⟩⟩
  · refine ⟨(World.run start events).cache.results.keys, World.nodup_keys_run, ?_, ?_⟩
    · intro path
      rw [Table.mem_keys_iff]
      constructor
      · rintro ⟨result, kept⟩
        obtain ⟨before, first, _⟩ := World.get?_run_eq_some_iff.mp kept
        exact ⟨before, first⟩
      · rintro ⟨before, first⟩
        exact ⟨_, World.get?_run_eq_some_iff.mpr ⟨before, first, rfl⟩⟩
    · simp [Cache.size, Table.keys]
  · intro entry other more apart
    have keeps : ((World.run start events).step (.invalidate entry)).cache.results.get?
        (start.absolute other) =
        (World.run start events).cache.results.get? (start.absolute other) := by
      refine World.get?_step_of_neither id fun drops => apart ?_
      rw [← World.absolute_run entry]
      exact drops.symm
    have unwritten : ((World.run start events).step (.invalidate entry)).fs =
        (World.run start events).fs := rfl
    obtain ⟨files, same⟩ := World.get?_foldl_congr unwritten keeps more
    have split : World.run start (events ++ .invalidate entry :: more) =
        more.foldl World.step ((World.run start events).step (.invalidate entry)) := by
      simp [World.run]
    have split' : World.run start (events ++ more) =
        more.foldl World.step (World.run start events) := by simp [World.run]
    rw [← split, ← split'] at files same
    constructor
    · rw [World.extraction_eq, World.extraction_eq, World.absolute_run, World.absolute_run, same,
        files]
    · rw [World.contains, World.contains, World.absolute_run, World.absolute_run, Cache.contains,
        Cache.contains, Table.has, Table.has, same]

end ParamSchema.Cache
