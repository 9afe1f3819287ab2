import Mathlib.Data.List.Nodup
import Vibra.Lib.Runs
import Vibra.Usb.Ehci
import Vibra.Usb.XhciPorts

/-! # Hotplug

What the drivers hold against what is on the ports, after a poll. A poll takes the ports one after
the other, and what it makes of a port is settled in the turn of that port.
-/

namespace Vibra.Usb

open Function (update)
open Lib (Along)

/-- The last enumeration of a port: of which device it was, and whether it came to an entry. -/
structure Trial where
  serial : Nat
  ok : Bool
deriving DecidableEq

/-- A host, and the last enumeration of each port. -/
structure Watched (σ : Type) where
  host : σ
  tried : Nat → Option Trial

/-- What happens to a host; `e` is how far an enumeration of a port gets, if there is one. -/
inductive Hotplug (ε : Type) where
  | connect (port : Nat)
  | disconnect (port : Nat)
  | pollEvents
  | enumerateNow (e : Nat → ε)
  | pollHotplug (e : Nat → ε)

/-- Each entry for the port is of the device that is there, and an enumeration that failed was of
that device too. -/
structure Follows (s : Socket) (has : Nat → Prop) (tried : Option Trial) : Prop where
  entries : ∀ n, has n → s.connected = true ∧ s.serial = n
  trial : ∀ n, tried = some ⟨n, false⟩ → s.connected = true → s.serial = n

section Follows

variable {s s' : Socket} {has has' : Nat → Prop} {tried : Option Trial} {ok added : Bool}

theorem follows_congr (hconnected : s'.connected = s.connected) (hserial : s'.serial = s.serial)
    (hhas : ∀ n, has' n ↔ has n) : Follows s' has' tried ↔ Follows s has tried := by
  constructor
  · rintro ⟨hentries, htrial⟩
    rw [hconnected, hserial] at hentries htrial
    exact ⟨fun n hn => hentries n ((hhas n).mpr hn), htrial⟩
  · rintro ⟨hentries, htrial⟩
    rw [← hconnected, ← hserial] at hentries htrial
    exact ⟨fun n hn => hentries n ((hhas n).mp hn), htrial⟩

theorem follows_enumerated_iff (hconnected : s.connected = true)
    (hhas : ∀ n, has' n ↔ has n ∨ (added = true ∧ n = s.serial)) :
    Follows s has' (some ⟨s.serial, ok⟩) ↔ ∀ n, has n → s.serial = n := by
  constructor
  · exact fun h n hn => (h.entries n ((hhas n).mpr (Or.inl hn))).2
  · refine fun h => ⟨fun n hn => ⟨hconnected, ?_⟩, fun n hn _ => ?_⟩
    · rcases (hhas n).mp hn with hold | ⟨_, rfl⟩
      · exact h n hold
      · rfl
    · exact congrArg Trial.serial (Option.some.inj hn)

theorem follows_forgotten (hconnected : s.connected = false) (hhas : ∀ n, ¬ has n) :
    Follows s has tried :=
  ⟨fun n hn => absurd hn (hhas n), fun n _ h => by rw [hconnected] at h; cases h⟩

end Follows

/-! ## xHCI -/

namespace Books

variable {b : Books} {port q serial n : Nat} {e : SlotEnumeration} {entry : SlotEntry}

def all (b : Books) : List SlotEntry := b.devices ++ b.storage ++ b.slots ++ b.keys

def Has (b : Books) (port serial : Nat) : Prop :=
  ∃ entry ∈ b.all, entry.port = port ∧ entry.serial = serial

def Sound (b : Books) : Prop := ∀ entry ∈ b.storage ++ b.keys, entry ∈ b.devices

theorem mem_all : entry ∈ b.all ↔
    entry ∈ b.devices ∨ entry ∈ b.storage ∨ entry ∈ b.slots ∨ entry ∈ b.keys := by
  simp [all]

theorem known_eq_true : b.known port = true ↔ ∃ entry ∈ b.devices, entry.port = port := by
  simp [known]

theorem mem_add : entry ∈ (b.add port serial e).all ↔
    entry ∈ b.all ∨ ∃ slot, e.slot = some slot ∧ entry = ⟨slot, port, serial⟩ := by
  rw [mem_all, mem_all]
  cases e with
  | noReset => simp [add, SlotEnumeration.slot]
  | noSlot => simp [add, SlotEnumeration.slot]
  | noDescriptor slot =>
    simp only [add, SlotEnumeration.slot, List.mem_append, List.mem_singleton, Option.some.injEq,
      exists_eq_left']
    tauto
  | done slot kind =>
    cases kind <;>
    · simp only [add, SlotEnumeration.slot, List.mem_append, List.mem_singleton,
        Option.some.injEq, exists_eq_left', reduceCtorEq, if_true, if_false]
      tauto

theorem known_add : (b.add port serial e).known q = (b.known q || (e.ok && port == q)) := by
  cases e <;> simp [add, known, SlotEnumeration.ok]

theorem Sound.add (h : b.Sound) : (b.add port serial e).Sound := by
  intro entry hentry
  cases e with
  | noReset => exact h entry hentry
  | noSlot => exact h entry hentry
  | noDescriptor slot => exact h entry hentry
  | done slot kind =>
    have hold (hin : entry ∈ b.storage ∨ entry ∈ b.keys) : entry ∈ b.devices :=
      h entry (List.mem_append.mpr hin)
    cases kind <;>
    · simp only [Books.add, List.mem_append, List.mem_singleton, reduceCtorEq, if_true,
        if_false] at hentry ⊢
      tauto

theorem has_add_self : (b.add port serial e).Has port n ↔
    b.Has port n ∨ (e.slot.isSome = true ∧ n = serial) := by
  unfold Has
  constructor
  · rintro ⟨entry, hentry, hport, hserial⟩
    rcases mem_add.mp hentry with hold | ⟨slot, hslot, rfl⟩
    · exact Or.inl ⟨entry, hold, hport, hserial⟩
    · exact Or.inr ⟨by rw [hslot]; rfl, hserial.symm⟩
  · rintro (⟨entry, hentry, hport, hserial⟩ | ⟨hslot, rfl⟩)
    · exact ⟨entry, mem_add.mpr (Or.inl hentry), hport, hserial⟩
    · obtain ⟨slot, hslot⟩ := Option.isSome_iff_exists.mp hslot
      exact ⟨_, mem_add.mpr (Or.inr ⟨slot, hslot, rfl⟩), rfl, rfl⟩

theorem has_add_other (hne : q ≠ port) : (b.add port serial e).Has q n ↔ b.Has q n := by
  unfold Has
  constructor
  · rintro ⟨entry, hentry, hport, hserial⟩
    rcases mem_add.mp hentry with hold | ⟨slot, _, rfl⟩
    · exact ⟨entry, hold, hport, hserial⟩
    · exact absurd hport.symm hne
  · rintro ⟨entry, hentry, hport, hserial⟩
    exact ⟨entry, mem_add.mpr (Or.inl hentry), hport, hserial⟩

theorem mem_removePortDevices (h : b.Sound) (hentry : entry ∈ (b.removePortDevices port).all) :
    entry ∈ b.all ∧ entry.port ≠ port := by
  rw [mem_all] at hentry ⊢
  simp only [removePortDevices, List.mem_filter, decide_eq_true_eq] at hentry
  rcases hentry with ⟨hin, hne⟩ | ⟨hin, hne⟩ | ⟨hin, hne⟩ | ⟨hin, hne⟩
  · exact ⟨Or.inl hin, hne⟩
  · exact ⟨Or.inr (Or.inl hin), hne⟩
  · exact ⟨Or.inr (Or.inr (Or.inl hin)), hne⟩
  · refine ⟨Or.inr (Or.inr (Or.inr hin)), fun hport => hne ?_⟩
    have hdevice := h entry (List.mem_append_right _ hin)
    exact List.mem_map.mpr ⟨entry, List.mem_filter.mpr ⟨hdevice, by simpa using hport⟩, rfl⟩

theorem Sound.removePortDevices (h : b.Sound) : (b.removePortDevices port).Sound := by
  intro entry hentry
  have hall : entry ∈ (b.removePortDevices port).all := by
    rw [mem_all]
    rcases List.mem_append.mp hentry with hin | hin
    · exact Or.inr (Or.inl hin)
    · exact Or.inr (Or.inr (Or.inr hin))
  have hold : entry ∈ b.storage ++ b.keys := by
    rw [List.mem_append] at hentry ⊢
    exact hentry.imp List.mem_of_mem_filter List.mem_of_mem_filter
  exact List.mem_filter.mpr ⟨h entry hold, by simpa using (mem_removePortDevices h hall).2⟩

theorem has_removePortDevices_other (h : b.Sound) (hne : q ≠ port) :
    (b.removePortDevices port).Has q n ↔ b.Has q n := by
  constructor
  · rintro ⟨entry, hentry, hport, hserial⟩
    exact ⟨entry, (mem_removePortDevices h hentry).1, hport, hserial⟩
  · rintro ⟨entry, hentry, rfl, hserial⟩
    have hkept (l : List SlotEntry) (hin : entry ∈ l) : entry ∈ l.filter (·.port ≠ port) :=
      List.mem_filter.mpr ⟨hin, by simpa using hne⟩
    refine ⟨entry, mem_all.mpr ?_, rfl, hserial⟩
    rcases mem_all.mp hentry with hin | hin | hin | hin
    · exact Or.inl (hkept _ hin)
    · exact Or.inr (Or.inl (hkept _ hin))
    · exact Or.inr (Or.inr (Or.inl (hkept _ hin)))
    · exact Or.inl (hkept _ (h entry (List.mem_append_right _ hin)))

theorem known_removePortDevices (hne : q ≠ port) :
    (b.removePortDevices port).known q = b.known q := by
  rw [Bool.eq_iff_iff, known_eq_true, known_eq_true]
  simp only [removePortDevices, List.mem_filter, decide_eq_true_eq]
  exact ⟨fun ⟨x, hx, hq⟩ => ⟨x, hx.1, hq⟩, fun ⟨x, hx, hq⟩ => ⟨x, ⟨hx, hq ▸ hne⟩, hq⟩⟩

end Books

namespace XhciPorts

/-- A turn of `poll_hotplug`, watched. -/
def watch (rescan : Bool) (e : Nat → SlotEnumeration) (w : Watched XhciPorts) (port : Nat) :
    Watched XhciPorts where
  host := w.host.look rescan port (e port)
  tried :=
    if w.host.Enumerates port then
      update w.tried port (some ⟨(w.host.sockets port).serial, (e port).ok⟩)
    else w.tried

def watchFirst (e : Nat → SlotEnumeration) (w : Watched XhciPorts) (port : Nat) :
    Watched XhciPorts where
  host := w.host.firstLook port (e port)
  tried :=
    if (w.host.sockets port).connected = true ∧ w.host.known port = false then
      update w.tried port (some ⟨(w.host.sockets port).serial, (e port).ok⟩)
    else w.tried

/-- `poll_hotplug` takes the note that the ports want another look. -/
def takeNote (w : Watched XhciPorts) : Watched XhciPorts :=
  { w with host := { w.host with rescan := false } }

def step (w : Watched XhciPorts) : Hotplug SlotEnumeration → Watched XhciPorts
  | .connect port => { w with host := w.host.turn port (w.host.sockets port).plug }
  | .disconnect port => { w with host := w.host.turn port (w.host.sockets port).unplug }
  | .pollEvents => { w with host := w.host.pollEvents }
  | .enumerateNow e => (List.range' 1 w.host.maxPorts).foldl (watchFirst e) w
  | .pollHotplug e => (List.range' 1 w.host.maxPorts).foldl (watch w.host.rescan e) (takeNote w)

/-- A controller is initialised, with anything on its ports. -/
def start (maxPorts : Nat) (sockets : Nat → Socket) : Watched XhciPorts where
  host :=
    { devices := [], storage := [], slots := [], keys := [], maxPorts, sockets, events := []
      rescan := false, portFail := fun _ => 0 }
  tried := fun _ => none

def Follows (w : Watched XhciPorts) (port : Nat) : Prop :=
  Usb.Follows (w.host.sockets port) (w.host.Has port) (w.tried port)

/-- The port in its turn: unless it is empty and the driver knows a device on it, all entries are
of the device that is there; and a device that came after an enumeration failed is announced by
the change bit, or finds the failures forgotten. -/
def Heeds (w : Watched XhciPorts) (port : Nat) : Prop :=
  let s := w.host.sockets port
  (∀ n, w.host.Has port n →
      (s.connected = false ∧ w.host.known port = true) ∨ (s.connected = true ∧ s.serial = n)) ∧
    (s.connected = true → ∀ n, w.tried port = some ⟨n, false⟩ → s.serial ≠ n →
      s.changed = true ∨ w.host.portFail (port % 32) = 0)

structure Kept (w : Watched XhciPorts) : Prop where
  sound : w.host.Sound
  entries : ∀ entry ∈ w.host.all, entry.port ∈ List.range' 1 w.host.maxPorts
  tried : ∀ port, w.tried port ≠ none → port ∈ List.range' 1 w.host.maxPorts
  known : ∀ port n, w.tried port = some ⟨n, false⟩ → w.host.known port = false

variable {w w' : Watched XhciPorts} {port q : Nat} {rescan : Bool} {e : Nat → SlotEnumeration}

theorem kept_start (maxPorts : Nat) (sockets : Nat → Socket) : Kept (start maxPorts sockets) :=
  ⟨nofun, nofun, fun _ h => absurd rfl h, fun _ _ _ => rfl⟩

theorem Kept.of_books (h : Kept w) (hmax : w'.host.maxPorts = w.host.maxPorts)
    (hbooks : w'.host.toBooks = w.host.toBooks) (htried : w'.tried = w.tried) : Kept w' := by
  obtain ⟨hsound, hentries, hports, hknown⟩ := h
  rw [← hbooks] at hsound hentries hknown
  rw [← htried] at hports hknown
  rw [← hmax] at hentries hports
  exact ⟨hsound, hentries, hports, hknown⟩

theorem Kept.of_add (h : Kept w) (hport : port ∈ List.range' 1 w.host.maxPorts)
    (hmax : w'.host.maxPorts = w.host.maxPorts)
    (hknown : w.host.known port = false)
    (hbooks : w'.host.toBooks =
      w.host.toBooks.add port (w.host.sockets port).serial (e port))
    (htried : w'.tried =
      update w.tried port (some ⟨(w.host.sockets port).serial, (e port).ok⟩)) : Kept w' := by
  refine ⟨?_, fun entry hentry => ?_, fun q hq => ?_, fun q n hq => ?_⟩
  · rw [hbooks]
    exact h.sound.add
  · rw [hmax]
    rw [hbooks] at hentry
    rcases Books.mem_add.mp hentry with hold | ⟨slot, _, rfl⟩
    · exact h.entries entry hold
    · exact hport
  · rw [hmax]
    rcases eq_or_ne q port with rfl | hne
    · exact hport
    · rw [htried, Function.update_of_ne hne] at hq
      exact h.tried q hq
  · rw [htried] at hq
    rw [hbooks, Books.known_add]
    rcases eq_or_ne q port with rfl | hne
    · rw [Function.update_self] at hq
      have hok := congrArg Trial.ok (Option.some.inj hq)
      simp only at hok
      rw [hknown, hok]
      rfl
    · rw [Function.update_of_ne hne] at hq
      rw [h.known q n hq]
      simp [hne.symm]

theorem kept_watch (h : Kept w) (hport : port ∈ List.range' 1 w.host.maxPorts) :
    Kept (watch rescan e w port) := by
  obtain ⟨hmoved, hbooks⟩ := w.host.look_spec rescan port (e port)
  by_cases henumerates : w.host.Enumerates port
  · rw [if_pos henumerates] at hbooks
    exact h.of_add hport hmoved.maxPorts henumerates.2.1 hbooks (if_pos henumerates)
  · rw [if_neg henumerates] at hbooks
    have htried : (watch rescan e w port).tried = w.tried := if_neg henumerates
    split at hbooks
    · rename_i hgone
      refine ⟨?_, fun entry hentry => ?_, fun q hq => ?_, fun q n hq => ?_⟩
      · show (w.host.look rescan port (e port)).Sound
        rw [hbooks]
        exact h.sound.removePortDevices
      · show entry.port ∈ List.range' 1 (w.host.look rescan port (e port)).maxPorts
        rw [hmoved.maxPorts]
        change entry ∈ (w.host.look rescan port (e port)).all at hentry
        rw [hbooks] at hentry
        exact h.entries entry (Books.mem_removePortDevices h.sound hentry).1
      · show q ∈ List.range' 1 (w.host.look rescan port (e port)).maxPorts
        rw [hmoved.maxPorts]
        rw [htried] at hq
        exact h.tried q hq
      · rw [htried] at hq
        have hunknown := h.known q n hq
        show (w.host.look rescan port (e port)).known q = false
        rw [hbooks]
        rcases eq_or_ne q port with rfl | hne
        · exact absurd hgone.2 (by simp [hunknown])
        · rw [Books.known_removePortDevices hne]
          exact hunknown
    · exact h.of_books hmoved.maxPorts hbooks htried

theorem kept_watchFirst (h : Kept w) (hport : port ∈ List.range' 1 w.host.maxPorts) :
    Kept (watchFirst e w port) := by
  obtain ⟨hmoved, hbooks⟩ := w.host.firstLook_spec port (e port)
  by_cases henumerates : (w.host.sockets port).connected = true ∧ w.host.known port = false
  · rw [if_pos henumerates] at hbooks
    exact h.of_add hport hmoved.maxPorts henumerates.2 hbooks (if_pos henumerates)
  · rw [if_neg henumerates] at hbooks
    exact h.of_books hmoved.maxPorts hbooks (if_neg henumerates)

theorem kept_foldl {turn : Watched XhciPorts → Nat → Watched XhciPorts}
    (hmax : ∀ w port, (turn w port).host.maxPorts = w.host.maxPorts)
    (hturn : ∀ w, ∀ port ∈ List.range' 1 w.host.maxPorts, Kept w → Kept (turn w port))
    {ports : List Nat} (hports : ∀ port ∈ ports, port ∈ List.range' 1 w.host.maxPorts)
    (h : Kept w) : Kept (ports.foldl turn w) := by
  induction ports generalizing w with
  | nil => exact h
  | cons port ports ih =>
    refine ih (fun q hq => ?_) (hturn w port (hports port (List.mem_cons_self ..)) h)
    rw [hmax]
    exact hports q (List.mem_cons_of_mem _ hq)

theorem maxPorts_foldl (rescan : Bool) (e : Nat → SlotEnumeration) (w : Watched XhciPorts)
    (ports : List Nat) : (ports.foldl (watch rescan e) w).host.maxPorts = w.host.maxPorts := by
  induction ports generalizing w with
  | nil => rfl
  | cons port ports ih =>
    exact (ih (watch rescan e w port)).trans (w.host.look_spec rescan port (e port)).1.maxPorts

theorem kept_step (h : Kept w) (event : Hotplug SlotEnumeration) : Kept (step w event) := by
  have hturn (port : Nat) (s : Socket) :
      (w.host.turn port s).maxPorts = w.host.maxPorts ∧
        (w.host.turn port s).toBooks = w.host.toBooks := by
    unfold turn
    dsimp only
    split <;> exact ⟨rfl, rfl⟩
  cases event with
  | connect port => exact h.of_books (hturn port _).1 (hturn port _).2 rfl
  | disconnect port => exact h.of_books (hturn port _).1 (hturn port _).2 rfl
  | pollEvents =>
    obtain ⟨hmoved, hbooks⟩ := w.host.pollEvents_spec
    exact h.of_books hmoved.maxPorts hbooks rfl
  | enumerateNow e =>
    exact kept_foldl (fun w port => (w.host.firstLook_spec port (e port)).1.maxPorts)
      (fun w port hport h => kept_watchFirst h hport) (fun _ hport => hport) h
  | pollHotplug e =>
    have hnote : Kept (takeNote w) := h.of_books rfl rfl rfl
    exact kept_foldl
      (fun w' port => (w'.host.look_spec w.host.rescan port (e port)).1.maxPorts)
      (fun w port hport h => kept_watch h hport) (fun _ hport => hport) hnote

/-! ### A turn and the ports -/

theorem follows_watch_self (h : Kept w) :
    Follows (watch rescan e w port) port ↔ Heeds w port := by
  obtain ⟨hmoved, hbooks⟩ := w.host.look_spec rescan port (e port)
  have hconnected := hmoved.connected port
  have hserial := hmoved.serial port
  by_cases henumerates : w.host.Enumerates port
  · rw [if_pos henumerates] at hbooks
    obtain ⟨hthere, hknown, hopen⟩ := henumerates
    have htried : (watch rescan e w port).tried port =
        some ⟨(w.host.sockets port).serial, (e port).ok⟩ := by
      show (if w.host.Enumerates port then _ else w.tried) port = _
      rw [if_pos ⟨hthere, hknown, hopen⟩, Function.update_self]
    have hhas (n : Nat) : (w.host.look rescan port (e port)).Has port n ↔
        w.host.Has port n ∨
          ((e port).slot.isSome = true ∧ n = (w.host.sockets port).serial) := by
      rw [hbooks]
      exact Books.has_add_self
    have hthere' : ((w.host.look rescan port (e port)).sockets port).connected = true :=
      hconnected.trans hthere
    unfold Follows
    rw [htried, ← hserial]
    rw [← hserial] at hhas
    refine (follows_enumerated_iff hthere' hhas).trans ?_
    rw [hserial]
    unfold Heeds
    dsimp only
    simp only [hthere, Bool.true_eq_false, false_and, false_or, true_and]
    exact ⟨fun hall => ⟨hall, fun _ _ _ _ => hopen⟩, fun hall => hall.1⟩
  · rw [if_neg henumerates] at hbooks
    have htried : (watch rescan e w port).tried = w.tried := if_neg henumerates
    unfold Follows
    rw [htried]
    split at hbooks
    · rename_i hgone
      refine iff_of_true (follows_forgotten (hconnected.trans hgone.1) fun n hn => ?_)
        ⟨fun n hn => Or.inl hgone, fun hthere => ?_⟩
      · change (w.host.look rescan port (e port)).Has port n at hn
        rw [hbooks] at hn
        obtain ⟨entry, hentry, hport, _⟩ := hn
        exact (Books.mem_removePortDevices h.sound hentry).2 hport
      · rw [hgone.1] at hthere
        cases hthere
    · rename_i hstays
      have hsame : Usb.Follows ((watch rescan e w port).host.sockets port)
          ((watch rescan e w port).host.Has port) (w.tried port) ↔
          Usb.Follows (w.host.sockets port) (w.host.Has port) (w.tried port) := by
        refine follows_congr hconnected hserial fun n => ?_
        show (w.host.look rescan port (e port)).Has port n ↔ _
        rw [hbooks]
      rw [hsame]
      constructor
      · rintro ⟨hentries, htrial⟩
        refine ⟨fun n hn => Or.inr (hentries n hn), fun hthere n hn hne => ?_⟩
        exact absurd (htrial n hn hthere) hne
      · rintro ⟨hentries, htrial⟩
        refine ⟨fun n hn => (hentries n hn).resolve_left hstays, fun n hn hthere => ?_⟩
        by_contra hne
        exact henumerates ⟨hthere, h.known port n hn, htrial hthere n hn hne⟩

theorem follows_watch_other (h : Kept w) (hne : q ≠ port) :
    Follows (watch rescan e w port) q ↔ Follows w q := by
  obtain ⟨hmoved, hbooks⟩ := w.host.look_spec rescan port (e port)
  have htried : (watch rescan e w port).tried q = w.tried q := by
    show (if w.host.Enumerates port then _ else w.tried) q = _
    split
    · exact Function.update_of_ne hne ..
    · rfl
  unfold Follows
  rw [htried]
  refine follows_congr (hmoved.connected q) (hmoved.serial q) fun n => ?_
  show (w.host.look rescan port (e port)).Has q n ↔ _
  rw [hbooks]
  split
  · exact Books.has_add_other hne
  · split
    · exact Books.has_removePortDevices_other h.sound hne
    · exact Iff.rfl

theorem follows_outside (h : Kept w) (hport : port ∉ List.range' 1 w.host.maxPorts) :
    Follows w port := by
  constructor
  · rintro n ⟨entry, hentry, rfl, _⟩
    exact absurd (h.entries entry hentry) hport
  · intro n hn
    exact absurd (h.tried port (by rw [hn]; exact nofun)) hport

theorem follows_pollEvents (w : Watched XhciPorts) (port : Nat) :
    Follows (step w .pollEvents) port ↔ Follows w port := by
  obtain ⟨hmoved, hbooks⟩ := w.host.pollEvents_spec
  refine follows_congr (hmoved.connected port) (hmoved.serial port) fun n => ?_
  show w.host.pollEvents.Has port n ↔ _
  rw [hbooks]

theorem follows_pollHotplug_iff (h : Kept w) (e : Nat → SlotEnumeration) :
    (∀ port, Follows (step w (.pollHotplug e)) port) ↔
      Along (watch w.host.rescan e) Heeds (takeNote w) (List.range' 1 w.host.maxPorts) := by
  have hnote : Kept (takeNote w) ∧ (takeNote w).host.maxPorts = w.host.maxPorts :=
    ⟨h.of_books rfl rfl rfl, rfl⟩
  have hinv (v : Watched XhciPorts) (port : Nat) (hport : port ∈ List.range' 1 w.host.maxPorts)
      (hv : Kept v ∧ v.host.maxPorts = w.host.maxPorts) :
      Kept (watch w.host.rescan e v port) ∧
        (watch w.host.rescan e v port).host.maxPorts = w.host.maxPorts :=
    ⟨kept_watch hv.1 (hv.2 ▸ hport),
      ((v.host.look_spec w.host.rescan port (e port)).1.maxPorts).trans hv.2⟩
  have hturns : (∀ port ∈ List.range' 1 w.host.maxPorts, Follows
      ((List.range' 1 w.host.maxPorts).foldl (watch w.host.rescan e) (takeNote w)) port) ↔
      Along (watch w.host.rescan e) Heeds (takeNote w) (List.range' 1 w.host.maxPorts) :=
    Lib.along_iff_each hinv (fun v port _ hv => follows_watch_self hv.1)
      (fun v port _ q hne hv => follows_watch_other hv.1 hne) List.nodup_range' hnote
  rw [← hturns]
  refine ⟨fun hall port _ => hall port, fun hall port => ?_⟩
  have hkept : Kept (step w (.pollHotplug e)) := kept_step h _
  have hmax : (step w (.pollHotplug e)).host.maxPorts = w.host.maxPorts :=
    maxPorts_foldl ..
  by_cases hport : port ∈ List.range' 1 w.host.maxPorts
  · exact hall port hport
  · exact follows_outside hkept (hmax ▸ hport)

end XhciPorts

/-! ## EHCI -/

namespace Ehci

def Has (c : Ehci) (port serial : Nat) : Prop :=
  ∃ entry ∈ c.devices ++ c.storage, entry.port = port ∧ entry.serial = serial

/-- A turn of `poll_hotplug`, watched. -/
def watch (e : Nat → Enumeration) (w : Watched Ehci) (port : Nat) : Watched Ehci where
  host := w.host.servicePort port false (e port)
  tried :=
    if w.host.Enumerates port false then
      update w.tried port (some ⟨(w.host.sockets port).serial, (e port).ok⟩)
    else w.tried

def setSocketOf (w : Watched Ehci) (port : Nat) (s : Socket) : Watched Ehci :=
  { w with host := w.host.setSocket port s }

/-- There are no events to poll for: the driver reads the ports. -/
def watchStep (w : Watched Ehci) : Hotplug Enumeration → Watched Ehci
  | .connect port => setSocketOf w port (w.host.sockets port).plug
  | .disconnect port => setSocketOf w port (w.host.sockets port).unplug
  | .pollEvents => w
  | .enumerateNow e | .pollHotplug e => (List.range' 1 w.host.ports).foldl (watch e) w

/-- A controller is initialised, with anything on its ports. -/
def watchStart (ports : Nat) (sockets : Nat → Socket) : Watched Ehci where
  host :=
    { ports, sockets, nextAddress := 0, portFailures := fun _ => 0, devices := [], storage := []
      allocated := 0 }
  tried := fun _ => none

def Follows (w : Watched Ehci) (port : Nat) : Prop :=
  Usb.Follows (w.host.sockets port) (w.host.Has port) (w.tried port)

/-- The port in its turn: unless it is empty and the driver knows a device on it, all entries are
of the device that is there. -/
def Heeds (w : Watched Ehci) (port : Nat) : Prop :=
  let s := w.host.sockets port
  ∀ n, w.host.Has port n →
    (s.connected = false ∧ w.host.known port = true) ∨ (s.connected = true ∧ s.serial = n)

/-- What is always so. The change bit stays until the port is serviced. -/
structure Kept (w : Watched Ehci) : Prop where
  sound : ∀ entry ∈ w.host.storage, entry ∈ w.host.devices
  entries : ∀ entry ∈ w.host.devices, entry.port ∈ List.range' 1 w.host.ports
  tried : ∀ port, w.tried port ≠ none → port ∈ List.range' 1 w.host.ports
  known : ∀ port n, w.tried port = some ⟨n, false⟩ → w.host.known port = false
  news : ∀ port n, w.tried port = some ⟨n, false⟩ → (w.host.sockets port).connected = true →
    (w.host.sockets port).serial ≠ n → (w.host.sockets port).changed = true

variable {w w' : Watched Ehci} {port q : Nat} {e : Nat → Enumeration} {s : Socket}

theorem kept_watchStart (ports : Nat) (sockets : Nat → Socket) : Kept (watchStart ports sockets) :=
  ⟨nofun, nofun, fun _ h => absurd rfl h, fun _ _ _ => rfl, nofun⟩

theorem known_eq_false {c : Ehci} :
    c.known port = false ↔ ∀ entry ∈ c.devices, entry.port ≠ port := by
  simp [known]

theorem Kept.has_iff (h : Kept w) (n : Nat) :
    w.host.Has port n ↔ ∃ entry ∈ w.host.devices, entry.port = port ∧ entry.serial = n := by
  constructor
  · rintro ⟨entry, hentry, hport⟩
    rcases List.mem_append.mp hentry with hin | hin
    · exact ⟨entry, hin, hport⟩
    · exact ⟨entry, h.sound entry hin, hport⟩
  · rintro ⟨entry, hentry, hport⟩
    exact ⟨entry, List.mem_append_left _ hentry, hport⟩

theorem kept_setSocketOf (h : Kept w)
    (hs : s.connected = true → s.serial = (w.host.sockets port).serial ∧
        (w.host.sockets port).connected = true ∧ s.changed = (w.host.sockets port).changed ∨
      s.changed = true) : Kept (setSocketOf w port s) := by
  refine ⟨h.sound, h.entries, h.tried, h.known, fun q n hq hthere hne => ?_⟩
  change (update w.host.sockets port s q).connected = true at hthere
  change (update w.host.sockets port s q).serial ≠ n at hne
  show (update w.host.sockets port s q).changed = true
  rcases eq_or_ne q port with rfl | hother
  · rw [Function.update_self] at hthere hne ⊢
    rcases hs hthere with ⟨hserial, hconnected, hchanged⟩ | hchanged
    · rw [hchanged]
      exact h.news q n hq hconnected (hserial ▸ hne)
    · exact hchanged
  · rw [Function.update_of_ne hother] at hthere hne ⊢
    exact h.news q n hq hthere hne

theorem devices_watch {entry : DeviceEntry} (hentry : entry ∈ (watch e w port).host.devices) :
    entry ∈ w.host.devices ∨
      (w.host.Enumerates port false ∧ (e port).ok = true ∧ entry.port = port) := by
  have hentries := w.host.servicePort_entries port false (e port)
  dsimp only at hentries
  change entry ∈ (w.host.servicePort port false (e port)).devices at hentry
  split at hentries
  · rename_i henumerates
    rw [hentries.1, List.mem_append] at hentry
    refine hentry.imp id fun hnew => ?_
    split at hnew
    · rename_i hok
      rw [List.mem_singleton.mp hnew]
      exact ⟨henumerates, hok, rfl⟩
    · cases hnew
  · split at hentries
    · rw [hentries.1] at hentry
      exact Or.inl (List.mem_of_mem_filter hentry)
    · rw [hentries.1] at hentry
      exact Or.inl hentry

theorem sound_watch (h : Kept w) :
    ∀ entry ∈ (watch e w port).host.storage, entry ∈ (watch e w port).host.devices := by
  have hentries := w.host.servicePort_entries port false (e port)
  dsimp only at hentries
  show ∀ entry ∈ (w.host.servicePort port false (e port)).storage,
    entry ∈ (w.host.servicePort port false (e port)).devices
  intro entry hentry
  split at hentries
  · rw [hentries.2, List.mem_append] at hentry
    rw [hentries.1, List.mem_append]
    refine hentry.imp (h.sound entry) fun hnew => ?_
    split at hnew
    · rename_i hdone
      rw [hdone]
      exact hnew
    · cases hnew
  · split at hentries
    · rw [hentries.2] at hentry
      rw [hentries.1]
      obtain ⟨hin, hne⟩ := List.mem_filter.mp hentry
      exact List.mem_filter.mpr ⟨h.sound entry hin, hne⟩
    · rw [hentries.2] at hentry
      rw [hentries.1]
      exact h.sound entry hentry

theorem tried_watch (w : Watched Ehci) (port q : Nat) : (watch e w port).tried q =
    if w.host.Enumerates port false ∧ q = port then
      some ⟨(w.host.sockets port).serial, (e port).ok⟩
    else w.tried q := by
  unfold watch
  dsimp only
  by_cases henumerates : w.host.Enumerates port false
  · rw [if_pos henumerates]
    rcases eq_or_ne q port with rfl | hne
    · rw [Function.update_self, if_pos ⟨henumerates, rfl⟩]
    · rw [Function.update_of_ne hne, if_neg fun h => hne h.2]
  · rw [if_neg henumerates, if_neg fun h => henumerates h.1]

theorem kept_watch (h : Kept w) (hport : port ∈ List.range' 1 w.host.ports) :
    Kept (watch e w port) := by
  obtain ⟨hports, hsockets⟩ := w.host.servicePort_sockets port false (e port)
  change (watch e w port).host.ports = w.host.ports at hports
  refine ⟨sound_watch h, fun entry hentry => ?_, fun q hq => ?_, fun q n hq => ?_,
    fun q n hq hthere hne => ?_⟩
  · rw [hports]
    rcases devices_watch hentry with hold | ⟨_, _, rfl⟩
    · exact h.entries entry hold
    · exact hport
  · rw [hports]
    rw [tried_watch] at hq
    split at hq
    · rename_i hself
      exact hself.2 ▸ hport
    · exact h.tried q hq
  · rw [tried_watch] at hq
    refine known_eq_false.mpr fun entry hentry hq' => ?_
    split at hq
    · rename_i hself
      have hok : (e port).ok = false := congrArg Trial.ok (Option.some.inj hq)
      rcases devices_watch hentry with hold | ⟨_, hok', _⟩
      · exact known_eq_false.mp hself.1.2.1 entry hold (hq'.trans hself.2)
      · rw [hok] at hok'
        cases hok'
    · rename_i hother
      rcases devices_watch hentry with hold | ⟨henumerates, _, hport'⟩
      · exact known_eq_false.mp (h.known q n hq) entry hold hq'
      · exact hother ⟨henumerates, hq'.symm.trans hport'⟩
  · change ((w.host.servicePort port false (e port)).sockets q).connected = true at hthere
    change ((w.host.servicePort port false (e port)).sockets q).serial ≠ n at hne
    rw [(hsockets q).1] at hthere
    rw [(hsockets q).2.1] at hne
    rw [tried_watch] at hq
    split at hq
    · rename_i hself
      exact absurd (congrArg Trial.serial (Option.some.inj hq)) (hself.2 ▸ hne)
    · rename_i hother
      have hchanged := h.news q n hq hthere hne
      have hq' : q ≠ port := by
        rintro rfl
        exact hother ⟨⟨hthere, h.known q n hq, Or.inl hchanged⟩, rfl⟩
      show ((w.host.servicePort port false (e port)).sockets q).changed = true
      rw [(hsockets q).2.2 hq']
      exact hchanged

theorem kept_foldl {ports : List Nat} (hports : ∀ port ∈ ports, port ∈ List.range' 1 w.host.ports)
    (h : Kept w) : Kept (ports.foldl (watch e) w) ∧
      (ports.foldl (watch e) w).host.ports = w.host.ports := by
  induction ports generalizing w with
  | nil => exact ⟨h, rfl⟩
  | cons port ports ih =>
    have hsame : (watch e w port).host.ports = w.host.ports :=
      (w.host.servicePort_sockets port false (e port)).1
    obtain ⟨hkept, hrest⟩ := ih (fun q hq => hsame ▸ hports q (List.mem_cons_of_mem _ hq))
      (kept_watch h (hports port (List.mem_cons_self ..)))
    exact ⟨hkept, hrest.trans hsame⟩

theorem kept_watchStep (h : Kept w) (event : Hotplug Enumeration) : Kept (watchStep w event) := by
  cases event with
  | connect port =>
    refine kept_setSocketOf h fun _ => ?_
    unfold Socket.plug
    split
    · exact Or.inl ⟨rfl, ‹_›, rfl⟩
    · exact Or.inr rfl
  | disconnect port =>
    refine kept_setSocketOf h fun hthere => ?_
    unfold Socket.unplug at hthere ⊢
    split
    · exact Or.inr rfl
    · rename_i hnone
      rw [if_neg hnone] at hthere
      exact absurd hthere hnone
  | pollEvents => exact h
  | enumerateNow e => exact (kept_foldl (fun _ hport => hport) h).1
  | pollHotplug e => exact (kept_foldl (fun _ hport => hport) h).1

theorem follows_watch_self (h : Kept w) (hport : port ∈ List.range' 1 w.host.ports) :
    Follows (watch e w port) port ↔ Heeds w port := by
  have hentries := w.host.servicePort_entries port false (e port)
  obtain ⟨_, hsockets⟩ := w.host.servicePort_sockets port false (e port)
  obtain ⟨hconnected, hserial, _⟩ := hsockets port
  have hkept : Kept (watch e w port) := kept_watch h hport
  unfold Follows
  rw [tried_watch]
  dsimp only at hentries
  split at hentries
  · rename_i henumerates
    obtain ⟨hdevices, _⟩ := hentries
    have hthere := henumerates.1
    have hhas (n : Nat) : (watch e w port).host.Has port n ↔
        w.host.Has port n ∨ ((e port).ok = true ∧ n = (w.host.sockets port).serial) := by
      rw [hkept.has_iff, h.has_iff]
      show (∃ entry ∈ (w.host.servicePort port false (e port)).devices, _) ↔ _
      rw [hdevices]
      cases (e port).ok with
      | false => simp
      | true => simp [or_and_right, exists_or, eq_comm]
    rw [if_pos ⟨henumerates, rfl⟩]
    refine (follows_congr (s := w.host.sockets port) hconnected hserial hhas).trans
      ((follows_enumerated_iff hthere fun _ => Iff.rfl).trans ?_)
    unfold Heeds
    dsimp only
    simp only [hthere, Bool.true_eq_false, false_and, false_or, true_and]
  · rename_i hidle
    rw [if_neg fun hboth => hidle hboth.1]
    split at hentries
    · rename_i hgone
      refine iff_of_true (follows_forgotten (hconnected.trans hgone.1) fun n hn => ?_)
        fun n hn => Or.inl hgone
      obtain ⟨entry, hentry, hport, _⟩ := (hkept.has_iff n).mp hn
      change entry ∈ (w.host.servicePort port false (e port)).devices at hentry
      rw [hentries.1] at hentry
      simpa [hport] using (List.mem_filter.mp hentry).2
    · rename_i hstays
      have hhas (n : Nat) : (watch e w port).host.Has port n ↔ w.host.Has port n := by
        show (∃ entry ∈ (w.host.servicePort port false (e port)).devices ++
          (w.host.servicePort port false (e port)).storage, _) ↔ _
        rw [hentries.1, hentries.2]
        rfl
      refine (follows_congr hconnected hserial hhas).trans ?_
      constructor
      · exact fun hfollows n hn => Or.inr (hfollows.entries n hn)
      · refine fun hheeds => ⟨fun n hn => (hheeds n hn).resolve_left hstays, fun n hn hthere => ?_⟩
        by_contra hne
        exact hidle ⟨hthere, h.known port n hn, Or.inl (h.news port n hn hthere hne)⟩

theorem follows_watch_other (h : Kept w) (hport : port ∈ List.range' 1 w.host.ports)
    (hne : q ≠ port) : Follows (watch e w port) q ↔ Follows w q := by
  have hentries := w.host.servicePort_entries port false (e port)
  obtain ⟨_, hsockets⟩ := w.host.servicePort_sockets port false (e port)
  have hkept : Kept (watch e w port) := kept_watch h hport
  unfold Follows
  rw [tried_watch, if_neg fun hboth => hne hboth.2]
  refine follows_congr (hsockets q).1 (hsockets q).2.1 fun n => ?_
  rw [hkept.has_iff, h.has_iff]
  show (∃ entry ∈ (w.host.servicePort port false (e port)).devices, _) ↔ _
  dsimp only at hentries
  split at hentries
  · rw [hentries.1]
    cases (e port).ok with
    | false => simp
    | true => simp [or_and_right, exists_or, hne.symm]
  · split at hentries
    · rw [hentries.1]
      constructor
      · rintro ⟨entry, hentry, hboth⟩
        exact ⟨entry, List.mem_of_mem_filter hentry, hboth⟩
      · rintro ⟨entry, hentry, hq, hserial⟩
        exact ⟨entry, List.mem_filter.mpr ⟨hentry, by simpa [hq] using hne⟩, hq, hserial⟩
    · rw [hentries.1]

theorem follows_outside (h : Kept w) (hport : port ∉ List.range' 1 w.host.ports) :
    Follows w port := by
  constructor
  · intro n hn
    obtain ⟨entry, hentry, rfl, _⟩ := (h.has_iff n).mp hn
    exact absurd (h.entries entry hentry) hport
  · intro n hn
    exact absurd (h.tried port (by rw [hn]; exact nofun)) hport

theorem follows_pollHotplug_iff (h : Kept w) (e : Nat → Enumeration) :
    (∀ port, Follows (watchStep w (.pollHotplug e)) port) ↔
      Along (watch e) Heeds w (List.range' 1 w.host.ports) := by
  have hinv (v : Watched Ehci) (port : Nat) (hport : port ∈ List.range' 1 w.host.ports)
      (hv : Kept v ∧ v.host.ports = w.host.ports) :
      Kept (watch e v port) ∧ (watch e v port).host.ports = w.host.ports :=
    ⟨kept_watch hv.1 (hv.2 ▸ hport),
      ((v.host.servicePort_sockets port false (e port)).1).trans hv.2⟩
  have hturns : (∀ port ∈ List.range' 1 w.host.ports, Follows
      ((List.range' 1 w.host.ports).foldl (watch e) w) port) ↔
      Along (watch e) Heeds w (List.range' 1 w.host.ports) :=
    Lib.along_iff_each hinv (fun v port hport hv => follows_watch_self hv.1 (hv.2 ▸ hport))
      (fun v port hport q hne hv => follows_watch_other hv.1 (hv.2 ▸ hport) hne)
      List.nodup_range' ⟨h, rfl⟩
  rw [← hturns]
  refine ⟨fun hall port _ => hall port, fun hall port => ?_⟩
  obtain ⟨hkept, hsame⟩ := kept_foldl (e := e) (fun _ hport => hport) h
  by_cases hport : port ∈ List.range' 1 w.host.ports
  · exact hall port hport
  · exact follows_outside hkept (hsame ▸ hport)

end Ehci

/-- After a poll, and calls of `poll_events` after it, the entries are of the devices that are there
and no replugged port is left aside, exactly when each port is heeded in its turn. -/
theorem hotplug_follows_iff (ports polls : Nat) (sockets : Nat → Socket) :
    (∀ (events : List (Hotplug SlotEnumeration)) (e : Nat → SlotEnumeration),
      let w := events.foldl XhciPorts.step (XhciPorts.start ports sockets)
      (∀ port, XhciPorts.Follows ((List.replicate polls .pollEvents).foldl XhciPorts.step
          (XhciPorts.step w (.pollHotplug e))) port) ↔
        Along (XhciPorts.watch w.host.rescan e) XhciPorts.Heeds (XhciPorts.takeNote w)
          (List.range' 1 w.host.maxPorts)) ∧
    ∀ (events : List (Hotplug Enumeration)) (e : Nat → Enumeration),
      let w := events.foldl Ehci.watchStep (Ehci.watchStart ports sockets)
      (∀ port, Ehci.Follows ((List.replicate polls .pollEvents).foldl Ehci.watchStep
          (Ehci.watchStep w (.pollHotplug e))) port) ↔
        Along (Ehci.watch e) Ehci.Heeds w (List.range' 1 w.host.ports) := by
  constructor
  · intro events e
    have hkept : XhciPorts.Kept (events.foldl XhciPorts.step (XhciPorts.start ports sockets)) := by
      induction events using List.reverseRecOn with
      | nil => exact XhciPorts.kept_start ports sockets
      | append_singleton events event ih =>
        rw [List.foldl_append]
        exact XhciPorts.kept_step ih event
    refine Iff.trans (forall_congr' fun port => ?_) (XhciPorts.follows_pollHotplug_iff hkept e)
    induction polls with
    | zero => exact Iff.rfl
    | succ polls ih =>
      rw [List.replicate_succ', List.foldl_append]
      exact (XhciPorts.follows_pollEvents _ port).trans ih
  · intro events e
    have hkept : Ehci.Kept (events.foldl Ehci.watchStep (Ehci.watchStart ports sockets)) := by
      induction events using List.reverseRecOn with
      | nil => exact Ehci.kept_watchStart ports sockets
      | append_singleton events event ih =>
        rw [List.foldl_append]
        exact Ehci.kept_watchStep ih event
    refine Iff.trans (forall_congr' fun port => ?_) (Ehci.follows_pollHotplug_iff hkept e)
    induction polls with
    | zero => exact Iff.rfl
    | succ polls ih =>
      rw [List.replicate_succ', List.foldl_append]
      exact ih

def unplugged : Nat → Socket := fun _ => ⟨false, false, 0, none, 0⟩

/-- A device is replaced between two polls, on either host. A device that is addressed and fails
later leaves a slot when it goes. A device that fails is plugged in again, and the event of that
is polled. -/
theorem hotplug_follows_fails :
    (¬ ∀ port, XhciPorts.Follows ([.connect 1, .pollHotplug fun _ => .done 1 .storage,
      .disconnect 1, .connect 1, .pollHotplug fun _ => .noSlot].foldl XhciPorts.step
      (XhciPorts.start 1 unplugged)) port) ∧
    (¬ ∀ port, XhciPorts.Follows ([.connect 1, .pollHotplug fun _ => .noDescriptor 1,
      .disconnect 1, .pollHotplug fun _ => .noSlot].foldl XhciPorts.step
      (XhciPorts.start 1 unplugged)) port) ∧
    (¬ ∀ port, XhciPorts.Follows ([.connect 1, .pollHotplug fun _ => .noSlot, .disconnect 1,
      .connect 1, .pollEvents, .pollHotplug fun _ => .done 1 .storage].foldl XhciPorts.step
      (XhciPorts.start 1 unplugged)) port) ∧
    ¬ ∀ port, Ehci.Follows ([.connect 1, .pollHotplug fun _ => .done true, .disconnect 1,
      .connect 1, .pollHotplug fun _ => .noReset].foldl Ehci.watchStep
      (Ehci.watchStart 1 unplugged)) port := by
  refine ⟨fun h => ?_, fun h => ?_, fun h => ?_, fun h => ?_⟩
  · exact absurd ((h 1).entries 1 ⟨⟨1, 1, 1⟩, by decide, rfl, rfl⟩) (by decide)
  · exact absurd ((h 1).entries 1 ⟨⟨1, 1, 1⟩, by decide, rfl, rfl⟩) (by decide)
  · exact absurd ((h 1).trial 1 (by decide) (by decide)) (by decide)
  · exact absurd ((h 1).entries 1 ⟨⟨1, 1, 1⟩, by decide, rfl, rfl⟩) (by decide)

end Vibra.Usb
