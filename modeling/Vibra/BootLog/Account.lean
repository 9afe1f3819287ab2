import Vibra.BootLog.Sink
import Vibra.Lib.Runs

/-! # What the log on disk says

The file is an account of the log: portions of it in their order, a marker for each stretch that was
overwritten before it could be written, and markers of portions that found no room.
-/

namespace Vibra.BootLog

open Lib (Along Bytes RecentRing)

variable {n a b c : Nat} {stream : Bytes} {sink : Sink} {ring : RecentRing UInt8}

inductive Entry where
  | data (bytes : Bytes)
  | dropped (count : Nat)
  | full

namespace Entry

def render : Entry → Bytes
  | data bytes => bytes
  | dropped count => droppedMarker count
  | full => fullMarker

/-- The entry stands for the log from `a` to `b`. -/
def At (stream : Bytes) (a b : Nat) : Entry → Prop
  | data bytes => b = a + bytes.length ∧ bytes ≠ [] ∧
      ∃ before after, stream = before ++ bytes ++ after ∧ before.length = a
  | dropped count => b = a + count ∧ 0 < count
  | full => b = a

theorem At.grow {e : Entry} (h : e.At stream a b) (more : Bytes) : e.At (stream ++ more) a b := by
  cases e with
  | data bytes =>
    obtain ⟨hb, hne, before, after, hstream, hlen⟩ := h
    refine ⟨hb, hne, before, after ++ more, ?_, hlen⟩
    rw [hstream, List.append_assoc]
  | dropped count => exact h
  | full => exact h

theorem At.render_ne {e : Entry} (h : e.At stream a b) : e.render ≠ [] := by
  cases e with
  | data bytes => exact h.2.1
  | dropped count => simp [render, droppedMarker, ascii]
  | full => simp [render, fullMarker, ascii]

end Entry

/-- The entries stand for the log from `a` to `b`. -/
inductive Accounts (stream : Bytes) (a : Nat) : List Entry → Nat → Prop
  | nil : Accounts stream a [] a
  | snoc {es : List Entry} {e : Entry} {b c : Nat} (hes : Accounts stream a es b)
      (he : e.At stream b c) : Accounts stream a (es ++ [e]) c

def render (es : List Entry) : Bytes := es.flatMap Entry.render

theorem render_append (es es' : List Entry) : render (es ++ es') = render es ++ render es' :=
  List.flatMap_append

theorem render_snoc (es : List Entry) (e : Entry) : render (es ++ [e]) = render es ++ e.render := by
  rw [render_append, render, render, List.flatMap_singleton]

namespace Accounts

theorem grow {es : List Entry} (h : Accounts stream a es b) (more : Bytes) :
    Accounts (stream ++ more) a es b := by
  induction h with
  | nil => exact .nil
  | snoc _ he ih => exact .snoc ih (he.grow more)

theorem render_ne {es : List Entry} (h : Accounts stream a es b) :
    ∀ e ∈ es, e.render ≠ [] := by
  induction h with
  | nil => exact fun _ he => nomatch he
  | snoc _ he ih =>
    intro e hmem
    rcases List.mem_append.mp hmem with hmem | hmem
    · exact ih e hmem
    · rw [List.mem_singleton.mp hmem]
      exact he.render_ne

end Accounts

/-- The data in the file are an account of the log up to `c`, and the size ends it at an entry. -/
structure Logged (stream : Bytes) (attach c : Nat) (sink : Sink) (shown hidden : List Entry) :
    Prop where
  account : Accounts stream attach (shown ++ hidden) c
  written : sink.written ≤ sink.file.bytes.length
  bytes : sink.file.bytes.take sink.written = render (shown ++ hidden)
  size : 0 < sink.file.updates → sink.file.size = (render shown).length
  fits : sink.written ≤ sink.capacity
  capacity : sink.capacity ≤ maxBootBytes

namespace Logged

variable {attach : Nat} {shown hidden : List Entry} {e : Entry} {write publish : Answer}

theorem length (h : Logged stream attach c sink shown hidden) :
    (render (shown ++ hidden)).length = sink.written := by
  rw [← h.bytes, List.length_take, Nat.min_eq_left h.written]

theorem failed (h : Logged stream attach c sink shown hidden) (tail : Bytes) :
    Logged stream attach c
      { sink with file := { sink.file with bytes := sink.file.bytes.take sink.written ++ tail } }
      shown hidden where
  account := h.account
  written := by
    show sink.written ≤ (sink.file.bytes.take sink.written ++ tail).length
    rw [List.length_append, List.length_take, Nat.min_eq_left h.written]
    exact Nat.le_add_right _ _
  bytes := by
    show (sink.file.bytes.take sink.written ++ tail).take sink.written = _
    rw [List.take_append_of_le_length, List.take_take, Nat.min_self, h.bytes]
    rw [List.length_take, Nat.min_eq_left h.written]
  size := h.size
  fits := h.fits
  capacity := h.capacity

theorem append (h : Logged stream attach c sink shown hidden) {c' : Nat}
    (he : e.At stream c c') (hroom : sink.written + e.render.length ≤ sink.capacity) :
    (∃ shown' hidden', Logged stream attach (if (sink.append e.render write publish).1 then c' else c)
      (sink.append e.render write publish).2 shown' hidden') ∧
    (sink.append e.render write publish).2.capacity = sink.capacity ∧
    (sink.append e.render write publish).2.cursor = sink.cursor := by
  cases write with
  | failed tail => exact ⟨⟨shown, hidden, h.failed tail⟩, rfl, rfl⟩
  | done =>
    have hlen := h.length
    have hbytes : (sink.file.bytes.take sink.written ++ e.render ++
        sink.file.bytes.drop (sink.written + e.render.length)).take
          (sink.written + e.render.length) = render (shown ++ hidden) ++ e.render := by
      rw [h.bytes, List.take_append_of_le_length, List.take_of_length_le]
      · rw [List.length_append, hlen]
      · rw [List.length_append, hlen]
    have hwritten : sink.written + e.render.length ≤ (sink.file.bytes.take sink.written ++
        e.render ++ sink.file.bytes.drop (sink.written + e.render.length)).length := by
      rw [List.length_append, List.length_append, h.bytes, hlen]
      exact Nat.le_add_right _ _
    cases publish with
    | failed _ =>
      refine ⟨⟨shown, hidden ++ [e], ?_, hwritten, ?_, h.size, hroom, h.capacity⟩, rfl, rfl⟩
      · rw [← List.append_assoc]
        exact h.account.snoc he
      · rw [← List.append_assoc, render_snoc]
        exact hbytes
    | done =>
      refine ⟨⟨shown ++ hidden ++ [e], [], ?_, hwritten, ?_, fun _ => ?_, hroom, h.capacity⟩,
        rfl, rfl⟩
      · rw [List.append_nil]
        exact h.account.snoc he
      · rw [List.append_nil, render_snoc]
        exact hbytes
      · have hsmall : sink.written + e.render.length < 2 ^ 32 :=
          (hroom.trans h.capacity).trans_lt (by decide)
        show (sink.written + e.render.length) % 2 ^ 32 = _
        rw [Nat.mod_eq_of_lt hsmall, render_snoc, List.length_append, hlen]

theorem writeBytes (h : Logged stream attach c sink shown hidden) {c' : Nat}
    (he : e.At stream c c') :
    (∃ shown' hidden',
      Logged stream attach (if (sink.writeBytes e.render write publish).1 then c' else c)
        (sink.writeBytes e.render write publish).2 shown' hidden') ∧
    (sink.writeBytes e.render write publish).2.capacity = sink.capacity ∧
    (sink.writeBytes e.render write publish).2.cursor = sink.cursor := by
  rw [Sink.writeBytes, if_neg he.render_ne]
  by_cases hroom : sink.capacity < sink.written + e.render.length
  · rw [if_pos hroom]
    by_cases hmarker : sink.written + fullMarker.length ≤ sink.capacity
    · rw [if_pos hmarker]
      have hfull := @append _ _ _ _ _ _ .full write publish h _ rfl hmarker
      rw [ite_self] at hfull
      exact hfull
    · rw [if_neg hmarker]
      exact ⟨⟨shown, hidden, h⟩, rfl, rfl⟩
  · rw [if_neg hroom]
    exact h.append he (by omega)

end Logged

/-! ## Runs -/

/-- A sink that has just been attached: it starts at the oldest byte of the ring. -/
structure Attached (n : Nat) (log : Log) (sink : Sink) : Prop where
  attached : log.sink = some sink
  cursor : sink.cursor = log.ring.first n
  written : sink.written = 0
  updates : sink.file.updates = 0
  capacity : sink.capacity ≤ maxBootBytes

/-- A flush that finds unread bytes overwritten can write its marker: it fits, and the write
succeeds. -/
def MarkerKept (n : Nat) (log : Log) : Event → Prop
  | .flush answers => ∀ sink, log.sink = some sink → sink.cursor < log.ring.first n →
      sink.written + (droppedMarker (log.ring.first n - sink.cursor)).length ≤ sink.capacity ∧
        answers.marker = .done
  | _ => True

/-- What has been logged since the start of the run, behind what was logged before. -/
def logged (before : Bytes) (events : List Event) : Bytes := before ++ events.flatMap Event.bytes

theorem logged_snoc (before : Bytes) (events : List Event) (e : Event) :
    logged before (events ++ [e]) = logged before events ++ e.bytes := by
  rw [logged, logged, List.flatMap_append, List.flatMap_singleton, List.append_assoc]

/-- The ring holds the end of the log, and the sink an account of it up to its cursor. -/
structure Good (n : Nat) (stream : Bytes) (attach : Nat) (log : Log) : Prop where
  ring : log.ring.Holds n stream
  sink : ∀ sink, log.sink = some sink → sink.cursor ≤ log.ring.total ∧
    ∃ shown hidden, Logged stream attach sink.cursor sink shown hidden

variable {log : Log} {attach : Nat}

theorem Logged.grow {shown hidden : List Entry} (h : Logged stream attach c sink shown hidden)
    (more : Bytes) : Logged (stream ++ more) attach c sink shown hidden :=
  ⟨h.account.grow more, h.written, h.bytes, h.size, h.fits, h.capacity⟩

theorem Logged.congr {sink' : Sink} {shown hidden : List Entry}
    (h : Logged stream attach c sink shown hidden) (hfile : sink'.file = sink.file)
    (hwritten : sink'.written = sink.written) (hcapacity : sink'.capacity = sink.capacity) :
    Logged stream attach c sink' shown hidden := by
  obtain ⟨h1, h2, h3, h4, h5, h6⟩ := h
  rw [← hfile, ← hwritten] at *
  rw [← hcapacity] at *
  exact ⟨h1, h2, h3, h4, h5, h6⟩

theorem Good.put (h : Good n stream attach log) (b : UInt8) :
    Good n (stream ++ [b]) attach { log with ring := log.ring.put n b } where
  ring := h.ring.put b
  sink sink hsink := by
    obtain ⟨hle, shown, hidden, hlogged⟩ := h.sink sink hsink
    exact ⟨hle.trans (Nat.le_succ _), shown, hidden, hlogged.grow [b]⟩

theorem catchUp_logged {answers : Sink.Answers} {shown hidden : List Entry}
    (hkept : sink.cursor < ring.first n →
      sink.written + (droppedMarker (ring.first n - sink.cursor)).length ≤ sink.capacity ∧
        answers.marker = .done)
    (h : Logged stream attach sink.cursor sink shown hidden) :
    ∃ shown' hidden', Logged stream attach (sink.catchUp n ring answers).cursor
      (sink.catchUp n ring answers) shown' hidden' := by
  rw [Sink.catchUp]
  by_cases hbehind : sink.cursor < ring.first n
  · rw [if_pos hbehind]
    obtain ⟨hroom, hdone⟩ := hkept hbehind
    have hat : (Entry.dropped (ring.first n - sink.cursor)).At stream sink.cursor (ring.first n) :=
      ⟨by omega, by omega⟩
    obtain ⟨⟨shown', hidden', hlogged⟩, -⟩ :=
      @Logged.writeBytes _ _ _ _ _ _ _ answers.marker answers.markerSize h _ hat
    have hok : (sink.writeBytes (droppedMarker (ring.first n - sink.cursor)) answers.marker
        answers.markerSize).1 = true := by
      rw [Sink.writeBytes, if_neg (show droppedMarker _ ≠ [] from hat.render_ne),
        if_neg (by omega), hdone]
      rfl
    rw [Entry.render, hok] at hlogged
    exact ⟨shown', hidden', hlogged.congr rfl rfl rfl⟩
  · rw [if_neg hbehind]
    exact ⟨shown, hidden, h⟩

theorem cursor_catchUp (answers : Sink.Answers) (hle : sink.cursor ≤ ring.total) :
    ring.first n ≤ (sink.catchUp n ring answers).cursor ∧
      (sink.catchUp n ring answers).cursor ≤ ring.total := by
  rw [Sink.catchUp]
  split
  case isTrue => exact ⟨le_rfl, Nat.sub_le _ _⟩
  case isFalse h => exact ⟨not_lt.mp h, hle⟩

theorem writePending_logged (hn : 0 < n) (hring : ring.Holds n stream) {answers : Sink.Answers}
    {shown hidden : List Entry}
    (hkept : sink.cursor < ring.first n →
      sink.written + (droppedMarker (ring.first n - sink.cursor)).length ≤ sink.capacity ∧
        answers.marker = .done)
    (hle : sink.cursor ≤ ring.total) (h : Logged stream attach sink.cursor sink shown hidden) :
    (sink.writePending n ring answers).2.cursor ≤ ring.total ∧
      ∃ shown' hidden', Logged stream attach (sink.writePending n ring answers).2.cursor
        (sink.writePending n ring answers).2 shown' hidden' := by
  obtain ⟨shown₁, hidden₁, h₁⟩ := catchUp_logged hkept h
  obtain ⟨hfirst, htotal⟩ := cursor_catchUp (n := n) answers hle
  rw [Sink.writePending]
  generalize sink.catchUp n ring answers = sink₁ at h₁ hfirst htotal
  obtain ⟨hnext, hbound, -, hpart⟩ := hring.chunk hn hfirst htotal (show 0 < chunkSize by decide)
  generalize ring.chunk n sink₁.cursor chunkSize = p at hnext hbound hpart
  obtain ⟨data, next⟩ := p
  dsimp only at hnext hbound hpart ⊢
  by_cases hdata : data = []
  · rw [if_pos hdata]
    exact ⟨htotal, shown₁, hidden₁, h₁⟩
  · rw [if_neg hdata]
    have hat : (Entry.data data).At stream sink₁.cursor next := ⟨hnext, hdata, hpart⟩
    obtain ⟨⟨shown₂, hidden₂, h₂⟩, -, hcursor⟩ :=
      @Logged.writeBytes _ _ _ _ _ _ _ answers.data answers.dataSize h₁ _ hat
    rw [Entry.render] at h₂ hcursor
    generalize sink₁.writeBytes data answers.data answers.dataSize = p at h₂ hcursor
    obtain ⟨ok, sink₂⟩ := p
    cases ok with
    | true => exact ⟨hbound, shown₂, hidden₂, h₂.congr rfl rfl rfl⟩
    | false =>
      dsimp only at hcursor
      refine ⟨hcursor ▸ htotal, shown₂, hidden₂, ?_⟩
      dsimp only
      rw [hcursor]
      exact h₂

theorem good_flush (hn : 0 < n) (h : Good n stream attach log) {answers : Sink.Answers}
    (hkept : MarkerKept n log (.flush answers)) :
    Good n stream attach (log.step n (.flush answers)) where
  ring := h.ring
  sink sink' hsink' := by
    obtain ⟨sink, hsink, hflush⟩ := Option.bind_eq_some_iff.mp hsink'
    obtain ⟨hle, shown, hidden, hlogged⟩ := h.sink sink hsink
    have hpending := writePending_logged hn h.ring (hkept sink hsink) hle hlogged
    rw [Sink.flush] at hflush
    generalize sink.writePending n log.ring answers = p at hpending hflush
    obtain ⟨ok, sink₁⟩ := p
    obtain ⟨hle₁, shown₁, hidden₁, h₁⟩ := hpending
    cases ok with
    | true =>
      rw [← Option.some.inj hflush]
      exact ⟨hle₁, shown₁, hidden₁, h₁.congr rfl rfl rfl⟩
    | false =>
      dsimp only at hflush
      split at hflush
      · contradiction
      · rw [← Option.some.inj hflush]
        exact ⟨hle₁, shown₁, hidden₁, h₁.congr rfl rfl rfl⟩

theorem good_run (hn : 0 < n) {before : Bytes} {events : List Event}
    (hgood : Good n before attach log) (hrun : Along (Log.step n) (MarkerKept n) log events) :
    Good n (logged before events) attach (log.run n events) := by
  refine hrun.invariant ?_
    fun events log e (h : Good n (logged before events) attach log) he => ?_
  · rw [logged, List.flatMap_nil, List.append_nil]
    exact hgood
  · rw [logged_snoc]
    cases e with
    | byte b => exact h.put b
    | char ch => exact h.put (sessionByte ch)
    | flush answers =>
      rw [Event.bytes, List.append_nil]
      exact good_flush hn h he

/-- What a reader of the volume finds is an account of the log from where the sink was attached,
up to the cursor when the last data were given a size. -/
structure Accounted (stream : Bytes) (attach : Nat) (sink : Sink) : Prop where
  account : ∃ shown hidden, Accounts stream attach (shown ++ hidden) sink.cursor ∧
    sink.file.published = render shown ∧ (sink.file.size = sink.written → hidden = [])
  size : sink.file.size ≤ sink.capacity

theorem Logged.accounted {shown hidden : List Entry}
    (h : Logged stream attach sink.cursor sink shown hidden) (hsize : 0 < sink.file.updates) :
    Accounted stream attach sink := by
  have hlen := h.length
  have hshown := h.size hsize
  rw [render_append, List.length_append] at hlen
  refine ⟨⟨shown, hidden, h.account, ?_, fun heq => ?_⟩, ?_⟩
  · have hinit := congrArg (List.take sink.file.size) h.bytes
    rw [List.take_take, Nat.min_eq_left (by omega), render_append, hshown,
      List.take_left] at hinit
    rw [LogFile.published, hshown, hinit]
  · have hnil : render hidden = [] := List.length_eq_zero_iff.mp (by omega)
    cases hidden with
    | nil => rfl
    | cons e es =>
      have hne := h.account.render_ne e (by simp)
      exact absurd (List.append_eq_nil_iff.mp hnil).1 hne
  · exact Nat.le_trans (by omega) h.fits

/-- The file holds the log up to the cursor, with a marker for each stretch that was dropped. -/
def Verbatim (stream : Bytes) (attach : Nat) (sink : Sink) : Prop :=
  ∃ es, Accounts stream attach es sink.cursor ∧ .full ∉ es ∧ sink.file.published = render es

theorem Accounts.le {es : List Entry} (h : Accounts stream a es b) :
    a + es.length ≤ b ∨ .full ∈ es := by
  induction h with
  | nil => exact .inl le_rfl
  | @snoc es e b c _ he ih =>
    rcases ih with hle | hmem
    · cases e with
      | data bytes =>
        have hpos := List.length_pos_iff.mpr he.2.1
        have := he.1
        refine .inl ?_
        rw [List.length_append, List.length_singleton]
        omega
      | dropped count =>
        obtain ⟨hc, hpos⟩ := he
        refine .inl ?_
        rw [List.length_append, List.length_singleton]
        omega
      | full => exact .inr (by simp)
    · exact .inr (List.mem_append_left _ hmem)

theorem flush_full {m : Nat} {b : UInt8} (hm : 0 < m) (hn : m ≤ n) (hchunk : m ≤ chunkSize)
    {capacity : Nat} (hroom : capacity < m) (hmarker : fullMarker.length ≤ capacity) :
    (⟨⟨[], 0, 0⟩, capacity, 0, 0, 0⟩ : Sink).flush n ⟨fun _ => b, m⟩
        ⟨.done, .done, .done, .done⟩ =
      some ⟨⟨fullMarker, fullMarker.length % 2 ^ 32, 1⟩, capacity, fullMarker.length, 0, 1⟩ := by
  have hfirst : (⟨fun _ => b, m⟩ : RecentRing UInt8).first n = 0 := Nat.sub_eq_zero_of_le hn
  have hread : (⟨fun _ => b, m⟩ : RecentRing UInt8).chunk n 0 chunkSize =
      (List.replicate m b, m) := by
    have hpos : 0 < chunkSize := by decide
    rw [RecentRing.chunk, hfirst, Nat.max_self,
      if_neg (show ¬ (m ≤ 0 ∨ chunkSize = 0) by omega), Nat.zero_mod]
    simp only [Nat.zero_add, Nat.sub_zero]
    rw [Nat.min_eq_right hn, Nat.min_eq_left hchunk, List.map_const', List.length_range]
  have hne : List.replicate m b ≠ [] := by
    rw [ne_eq, List.replicate_eq_nil_iff]
    omega
  have hwrite : (⟨⟨[], 0, 0⟩, capacity, 0, 0, 0⟩ : Sink).writeBytes (List.replicate m b)
        .done .done =
      (false, ⟨⟨fullMarker, fullMarker.length % 2 ^ 32, 1⟩, capacity, fullMarker.length, 0, 0⟩) := by
    rw [Sink.writeBytes, if_neg hne, if_pos (by simpa using hroom), if_pos (by simpa using hmarker)]
    simp [Sink.append, LogFile.writeAt, LogFile.publishSize]
  rw [Sink.flush, Sink.writePending, Sink.catchUp, hfirst, if_neg (Nat.lt_irrefl 0)]
  simp only [hread, if_neg hne, hwrite]
  rfl

/-- A log of 600 bytes and a file of one cluster of 512 bytes, and a log of one byte. -/
def longLog : Log := ⟨⟨fun _ => 0x61, 600⟩, some ⟨⟨[], 0, 0⟩, 512, 0, 0, 0⟩⟩

def shortLog : Log := ⟨⟨fun _ => 0x61, 1⟩, some ⟨⟨[], 0, 0⟩, 512, 0, 0, 0⟩⟩

end Vibra.BootLog
