import Vibra.Pci.Assignment

/-! # BARs stay apart

`init` puts stray BARs behind the highest address that it has read. It knows no sizes but those
of the BARs it moves.
-/

namespace Vibra.Pci

open Lib (alignUp Bump.pointer Bump.advance)

variable {f g : PciFunction} {fs : List PciFunction} {b : Bar} {nextMmio i j k : Nat}

theorem le_foldl_max (l : List Nat) (next : Nat) :
    let m := l.foldl (fun next bar => if next ≤ bar ∧ bar < mmioLimit then bar else next) next
    next ≤ m ∧ ∀ bar ∈ l, bar < mmioLimit → bar ≤ m := by
  induction l generalizing next with
  | nil => exact ⟨Nat.le_refl _, nofun⟩
  | cons bar l ih =>
    obtain ⟨hle, hall⟩ := ih (if next ≤ bar ∧ bar < mmioLimit then bar else next)
    rw [List.foldl_cons]
    refine ⟨Nat.le_trans (by split <;> omega) hle, fun bar' hmem hlt => ?_⟩
    rcases List.mem_cons.mp hmem with rfl | hmem
    · refine Nat.le_trans ?_ hle
      split <;> omega
    · exact hall bar' hmem hlt

theorem le_foldl_devices (devices : List PciDevice) (next : Nat) :
    let m := devices.foldl (fun next device =>
      device.barPhys.foldl (fun next bar =>
        if next ≤ bar ∧ bar < mmioLimit then bar else next) next) next
    next ≤ m ∧ ∀ device ∈ devices, ∀ bar ∈ device.barPhys, bar < mmioLimit → bar ≤ m := by
  induction devices generalizing next with
  | nil => exact ⟨Nat.le_refl _, nofun⟩
  | cons device devices ih =>
    obtain ⟨hnext, hbars⟩ := le_foldl_max device.barPhys next
    obtain ⟨hle, hall⟩ := ih (device.barPhys.foldl (fun next bar =>
      if next ≤ bar ∧ bar < mmioLimit then bar else next) next)
    rw [List.foldl_cons]
    refine ⟨Nat.le_trans hnext hle, fun device' hmem bar hbar hlt => ?_⟩
    rcases List.mem_cons.mp hmem with rfl | hmem
    · exact Nat.le_trans (hbars bar hbar hlt) hle
    · exact hall device' hmem bar hbar hlt

theorem lt_firstFree (devices : List PciDevice) :
    0x80000000 < firstFree devices ∧ ∀ device ∈ devices, ∀ bar ∈ device.barPhys,
      bar < mmioLimit → bar < firstFree devices := by
  obtain ⟨hle, hall⟩ := le_foldl_devices devices 0x80000000
  unfold firstFree
  refine ⟨by dsimp only at hle ⊢; omega, fun device hmem bar hbar hlt => ?_⟩
  have := hall device hmem bar hbar hlt
  dsimp only at this ⊢
  omega

theorem readBars_append (pre post : List Bar) (i : Nat) :
    readBars (pre ++ post) ((pre.map (·.kind.registers)).sum + i) = readBars post i := by
  induction pre with
  | nil => rw [List.nil_append, List.map_nil, List.sum_nil, Nat.zero_add]
  | cons b pre ih =>
    rw [List.cons_append, readBars, List.map_cons, List.sum_cons, if_neg (by omega),
      Nat.add_assoc, Nat.add_sub_cancel_left, ih]

theorem address_mem_barPhys (hb : b ∈ f.bars) (hmemory : b.kind.IsMemory) :
    b.address ∈ f.scan.barPhys := by
  obtain ⟨pre, post, hbars⟩ := List.append_of_mem hb
  have hsix := f.six
  change (f.bars.map _).sum = 6 at hsix
  rw [hbars, List.map_append, List.sum_append, List.map_cons, List.sum_cons] at hsix
  have hpos := PciFunction.registers_pos b.kind
  have hio : b.kind ≠ .io := by
    rcases hmemory with h | h <;> rw [h] <;> exact nofun
  obtain ⟨heven, hlow, htype⟩ := Bar.type_read hio
  have hread : f.readBar ((pre.map (·.kind.registers)).sum) = b.read 0 := by
    have := readBars_append pre (b :: post) 0
    rw [Nat.add_zero, ← hbars] at this
    rw [PciFunction.readBar, this, readBars, if_pos hpos]
  refine List.mem_map.mpr ⟨(pre.map (·.kind.registers)).sum, List.mem_range.mpr (by omega), ?_⟩
  rw [barPhys, hread]
  rcases hmemory with hkind | hkind
  · have hnot : b.kind ≠ .mem64 := by rw [hkind]; exact nofun
    rw [Bar.address_of_not_mem64 hnot]
    split
    · omega
    · rw [if_neg (fun h => hnot (htype.mp h.1)), hlow]
  · have htwo := htype.mpr hkind
    have hread' : f.readBar ((pre.map (·.kind.registers)).sum + 1) = b.read 1 := by
      have := readBars_append pre (b :: post) 1
      rw [← hbars] at this
      rw [PciFunction.readBar, this, readBars, if_pos (by rw [hkind]; decide)]
    have hregisters : b.kind.registers = 2 := by rw [hkind]; rfl
    rw [if_neg (by omega), if_pos heven, if_pos ⟨htwo, by omega⟩, hread', hlow]
    rfl

theorem address_lt_firstFree (hf : f ∈ fs) (hb : b ∈ f.bars) (hmemory : b.kind.IsMemory)
    (hlt : b.address < mmioLimit) : b.address < firstFree (fs.map PciFunction.scan) :=
  (lt_firstFree _).2 f.scan (List.mem_map_of_mem hf) _ (address_mem_barPhys hb hmemory) hlt

/-- What the pass gives to a function. -/
def place (nextMmio : Nat) (f : PciFunction) : Option (Nat × Nat) :=
  let base := alignUp f.bar0.size nextMmio
  if f.bar0.kind = .mem64 ∧ (f.bar0.address = 0 ∨ mmioLimit ≤ f.bar0.address) ∧
      f.bar0.size ≤ 64 * 2 ^ 20 ∧ base + f.bar0.size ≤ mmioLimit then
    some (base, base + f.bar0.size)
  else none

theorem place_of_moves (h : f.bar0.Moves nextMmio) : place nextMmio f =
    some (alignUp f.bar0.size nextMmio, alignUp f.bar0.size nextMmio + f.bar0.size) :=
  if_pos ⟨h.mem64, h.stray.outside, h.stray.size, h.fits⟩

theorem place_of_not_moves (h : ¬ f.bar0.Moves nextMmio) : place nextMmio f = none :=
  if_neg fun ⟨hkind, houtside, hsize, hfits⟩ => h ⟨⟨Or.inr hkind, houtside, hsize⟩, hkind, hfits⟩

theorem grows_place : Lib.Bump.Grows place := by
  intro nextMmio f x hx
  by_cases h : f.bar0.Moves nextMmio
  · rw [place_of_moves h] at hx
    cases hx
    have hsize := (size_of_mem64 h.mem64).1
    exact ⟨Lib.le_alignUp (by omega), Nat.le_add_right _ _⟩
  · rw [place_of_not_moves h] at hx
    cases hx

/-- The functions after `init`. -/
def relocated (fs : List PciFunction) : List PciFunction := (init fs).map Prod.fst

def window (fs : List PciFunction) : Nat := firstFree (fs.map PciFunction.scan)

/-- The pointer before function `i` is looked at. -/
def pointer (fs : List PciFunction) (i : Nat) : Nat :=
  Bump.pointer place (window fs) fs i

theorem advance_eq (nextMmio : Nat) (f : PciFunction) :
    (assignBar0IfNeeded f f.scan nextMmio).2.2 = Bump.advance place nextMmio f := by
  by_cases h : f.bar0.Moves nextMmio
  · rw [h.assign.2, Lib.Bump.advance_some (place_of_moves h)]
  · rw [assign_of_not_moves h, Lib.Bump.advance_none (place_of_not_moves h)]

theorem getElem?_assignAll (fs : List PciFunction) (nextMmio i : Nat) :
    ((assignAll fs (fs.map PciFunction.scan) nextMmio).map Prod.fst)[i]? =
      fs[i]?.map fun f => (assignBar0IfNeeded f f.scan (Bump.pointer place nextMmio fs i)).1 := by
  induction fs generalizing nextMmio i with
  | nil => rfl
  | cons f fs ih =>
    cases i with
    | zero => rfl
    | succ i =>
      rw [Lib.Bump.pointer_cons_succ, ← advance_eq]
      exact ih _ i

theorem getElem?_relocated (fs : List PciFunction) (i : Nat) :
    (relocated fs)[i]? = fs[i]?.map fun f => (assignBar0IfNeeded f f.scan (pointer fs i)).1 :=
  getElem?_assignAll fs _ i

inductive Outcome (nextMmio : Nat) (f : PciFunction) : PciFunction → Prop where
  | moved (h : f.bar0.Moves nextMmio) : Outcome nextMmio f (f.moveTo (alignUp f.bar0.size nextMmio))
  | kept (h : ¬ f.bar0.Moves nextMmio) : Outcome nextMmio f f

theorem window_le_pointer (fs : List PciFunction) (i : Nat) : window fs ≤ pointer fs i := by
  have hmono := grows_place.pointer_mono (p := window fs) (l := fs) (Nat.zero_le i)
  rwa [Lib.Bump.pointer_zero] at hmono

theorem pos_pointer (fs : List PciFunction) (i : Nat) : 0x80000000 < pointer fs i :=
  (lt_firstFree _).1.trans_le (window_le_pointer fs i)

section Moved

variable (h : f.bar0.Moves nextMmio)

include h

theorem Bar.Moves.address_moveTo :
    (f.bar0.moveTo (alignUp f.bar0.size nextMmio)).address = alignUp f.bar0.size nextMmio := by
  have hfits := h.fits
  have hsize := h.stray.size
  have hbits : f.bar0.bits ≤ 32 := by
    by_contra hlarge
    have hpow : 2 ^ 32 ≤ f.bar0.size := Nat.pow_le_pow_right (by decide) (by omega)
    omega
  unfold Bar.Fits mmioLimit at hfits
  exact Bar.address_moveTo (Lib.dvd_alignUp _ _) hbits (by omega)

theorem Bar.Moves.moveTo_ne (hpos : 0 < nextMmio) :
    f.bar0.moveTo (alignUp f.bar0.size nextMmio) ≠ f.bar0 := by
  intro heq
  have haddress := h.address_moveTo
  rw [heq] at haddress
  have hsize := (size_of_mem64 h.mem64).1
  have hle : nextMmio ≤ alignUp f.bar0.size nextMmio := Lib.le_alignUp (by omega)
  have hfits := h.fits
  have houtside := h.stray.outside
  unfold Bar.Fits at hfits
  omega

end Moved

def Apart (a b : Bar) : Prop := a.stop ≤ b.address ∨ b.stop ≤ a.address

/-- The memory BAR lies in the window or below it. -/
structure Bar.Used (b : Bar) : Prop where
  memory : b.kind.IsMemory
  pos : b.address ≠ 0
  lt : b.address < mmioLimit

def Room (fs : List PciFunction) (b : Bar) : Prop :=
  ∃ base, b.size ∣ base ∧ base + b.size ≤ mmioLimit ∧
    ∀ f ∈ fs, ∀ c ∈ f.bars, c.Used → c.stop ≤ base

/-- Function `i` is `f` before the pass and `f'` after it. -/
structure Passes (fs : List PciFunction) (i : Nat) (f f' : PciFunction) : Prop where
  before : fs[i]? = some f
  after : (relocated fs)[i]? = some f'

structure Relocates (fs : List PciFunction) : Prop where
  /-- A BAR that has been written is aligned and ends in the window. -/
  aligned : ∀ i f f', Passes fs i f f' → f'.bar0 ≠ f.bar0 →
    f'.bar0.size ∣ f'.bar0.address ∧ f'.bar0.stop ≤ mmioLimit
  /-- It meets no other. -/
  apart : ∀ i f f', Passes fs i f f' → f'.bar0 ≠ f.bar0 →
    ∀ j g g', Passes fs j g g' → ∀ (k : Nat) (b : Bar), g'.bars[k]? = some b →
      b.kind.IsMemory → b.address ≠ 0 → (j, k) ≠ (i, 0) → Apart f'.bar0 b
  kept : ∀ i f f', Passes fs i f f' → f'.rest = f.rest ∧ (f'.bar0 = f.bar0 → f' = f)
  /-- Functions before `i` are as they are when the pass comes to `i`. -/
  placed : ∀ i f f', Passes fs i f f' → f.bar0.Stray →
    Room ((relocated fs).take i ++ fs.drop i) f.bar0 → f'.bar0 ≠ f.bar0

structure Spares (fs : List PciFunction) : Prop where
  /-- The first BAR that is moved is put behind the end of every other. -/
  clear : ∀ (i : Nat) (f : PciFunction), fs[i]? = some f → f.bar0.Moves (window fs) →
    (∀ j < i, ∀ g : PciFunction, fs[j]? = some g → ¬ g.bar0.Moves (window fs)) →
      ∀ g ∈ fs, ∀ b ∈ g.bars, b.Used → b.stop ≤ alignUp f.bar0.size (window fs)
  /-- A stray BAR for which there is room has 64 bits and fits behind the pointer. -/
  wide : ∀ (i : Nat) (f : PciFunction), fs[i]? = some f → f.bar0.Stray →
    Room ((relocated fs).take i ++ fs.drop i) f.bar0 →
      f.bar0.kind = .mem64 ∧ f.bar0.Fits (pointer fs i)

theorem Passes.outcome (h : Passes fs i f g) : Outcome (pointer fs i) f g := by
  have hg := h.after
  rw [getElem?_relocated, h.before, Option.map_some] at hg
  obtain rfl := Option.some.inj hg
  by_cases hmoves : f.bar0.Moves (pointer fs i)
  · rw [hmoves.assign.1]
    exact .moved hmoves
  · rw [assign_of_not_moves hmoves]
    exact .kept hmoves

theorem exists_passes (h : fs[i]? = some f) : ∃ f', Passes fs i f f' :=
  ⟨_, h, by rw [getElem?_relocated, h, Option.map_some]⟩

theorem Passes.ne_iff (h : Passes fs i f g) : g.bar0 ≠ f.bar0 ↔ f.bar0.Moves (pointer fs i) := by
  cases h.outcome with
  | moved hmoves =>
    have hpos := pos_pointer fs i
    exact ⟨fun _ => hmoves, fun _ => hmoves.moveTo_ne (by omega)⟩
  | kept hmoves => exact ⟨fun hne => absurd rfl hne, fun h' => absurd h' hmoves⟩

theorem Bar.Stray.not_used (h : b.Stray) : ¬ b.Used := fun hused =>
  h.outside.elim hused.pos fun hle => absurd hused.lt (Nat.not_lt.mpr hle)

theorem Passes.getElem?_bars (h : Passes fs j f g) (hused : b.Used) (hb : f.bars[k]? = some b) :
    g.bars[k]? = some b := by
  cases h.outcome with
  | kept => exact hb
  | moved hmoves =>
    cases k with
    | zero =>
      obtain rfl : f.bar0 = b := Option.some.inj hb
      exact absurd hused hmoves.stray.not_used
    | succ k => exact hb

theorem Passes.bar_cases (h : Passes fs j f g) (hb : g.bars[k]? = some b) :
    b ∈ f.bars ∨ k = 0 ∧ f.bar0.Moves (pointer fs j) ∧
      b = f.bar0.moveTo (alignUp f.bar0.size (pointer fs j)) := by
  cases h.outcome with
  | kept => exact Or.inl (List.mem_of_getElem? hb)
  | moved hmoves =>
    cases k with
    | zero => exact Or.inr ⟨rfl, hmoves, (Option.some.inj hb).symm⟩
    | succ k => exact Or.inl (List.mem_cons_of_mem _ (List.mem_of_getElem? hb))

theorem pointer_eq_window
    (h : ∀ j < i, ∀ g : PciFunction, fs[j]? = some g → ¬ g.bar0.Moves (window fs)) :
    pointer fs i = window fs :=
  Lib.Bump.pointer_eq_start fun j hj g hg => place_of_not_moves (h j hj g hg)

theorem Bar.Moves.mono {p q : Nat} (h : b.Moves q) (hpq : p ≤ q) : b.Moves p :=
  ⟨h.stray, h.mem64, Nat.le_trans (Nat.add_le_add_right (Lib.alignUp_mono hpq) _) h.fits⟩

theorem exists_first (hf : fs[i]? = some f) (h : f.bar0.Moves (pointer fs i)) :
    ∃ (j : Nat) (g : PciFunction), fs[j]? = some g ∧ g.bar0.Moves (window fs) ∧
      (∀ k < j, ∀ g' : PciFunction, fs[k]? = some g' → ¬ g'.bar0.Moves (window fs)) ∧
      alignUp g.bar0.size (window fs) ≤ alignUp f.bar0.size (pointer fs i) := by
  classical
  have hex : ∃ j, ∃ g : PciFunction, fs[j]? = some g ∧ g.bar0.Moves (window fs) :=
    ⟨i, f, hf, h.mono (window_le_pointer fs i)⟩
  obtain ⟨g, hg, hmoves⟩ := Nat.find_spec hex
  have hfirst : ∀ k < Nat.find hex, ∀ g' : PciFunction, fs[k]? = some g' →
      ¬ g'.bar0.Moves (window fs) := fun k hk g' hg' hm => Nat.find_min hex hk ⟨g', hg', hm⟩
  refine ⟨Nat.find hex, g, hg, hmoves, hfirst, ?_⟩
  have hstart := pointer_eq_window hfirst
  rcases Nat.lt_or_ge (Nat.find hex) i with hlt | hge
  · have hplace := place_of_moves hmoves
    rw [← hstart] at hplace
    have hle := grows_place.stop_le_start hlt hg hplace (place_of_moves h)
    rw [hstart] at hle
    exact Nat.le_trans (Nat.le_add_right _ _) hle
  · have hi : Nat.find hex = i :=
      Nat.le_antisymm (Nat.find_min' hex ⟨f, hf, h.mono (window_le_pointer fs i)⟩) hge
    rw [hi] at hg hstart
    obtain rfl : g = f := Option.some.inj (hg.symm.trans hf)
    rw [hstart]

theorem Bar.Moves.stop_moveTo (h : f.bar0.Moves nextMmio) :
    (f.bar0.moveTo (alignUp f.bar0.size nextMmio)).stop =
      alignUp f.bar0.size nextMmio + f.bar0.size := by
  rw [Bar.stop, h.address_moveTo]
  rfl

theorem Bar.Moves.le_alignUp (h : f.bar0.Moves nextMmio) :
    nextMmio ≤ alignUp f.bar0.size nextMmio ∧ 0 < f.bar0.size := by
  have hsize := (size_of_mem64 h.mem64).1
  exact ⟨Lib.le_alignUp (by omega), by omega⟩

theorem apart_of_moves (hij : i < j) (hf : fs[i]? = some f) (hg : fs[j]? = some g)
    (hi : f.bar0.Moves (pointer fs i)) (hj : g.bar0.Moves (pointer fs j)) :
    (f.bar0.moveTo (alignUp f.bar0.size (pointer fs i))).stop ≤
      (g.bar0.moveTo (alignUp g.bar0.size (pointer fs j))).address := by
  rw [hi.stop_moveTo, hj.address_moveTo]
  exact grows_place.stop_le_start hij hf (place_of_moves hi) (place_of_moves hj)

theorem Spares.apart (h : Spares fs) (hf : Passes fs i f g) (hmoves : f.bar0.Moves (pointer fs i))
    {f' g' : PciFunction} (hg : Passes fs j f' g') (hb : g'.bars[k]? = some b)
    (hmemory : b.kind.IsMemory) (hpos : b.address ≠ 0) (hne : (j, k) ≠ (i, 0)) :
    Apart (f.bar0.moveTo (alignUp f.bar0.size (pointer fs i))) b := by
  rcases hg.bar_cases hb with hold | ⟨rfl, hmoves', rfl⟩
  · rcases Nat.lt_or_ge b.address mmioLimit with hlt | hge
    · obtain ⟨l, p, hp, hfirst, hearlier, hle⟩ := exists_first hf.before hmoves
      have hstop := h.clear l p hp hfirst hearlier f' (List.mem_of_getElem? hg.before) b hold
        ⟨hmemory, hpos, hlt⟩
      right
      rw [hmoves.address_moveTo]
      exact Nat.le_trans hstop hle
    · left
      rw [hmoves.stop_moveTo]
      exact Nat.le_trans hmoves.fits hge
  · rcases Nat.lt_trichotomy i j with hlt | rfl | hgt
    · exact Or.inl (apart_of_moves hlt hf.before hg.before hmoves hmoves')
    · exact absurd rfl hne
    · exact Or.inr (apart_of_moves hgt hg.before hf.before hmoves' hmoves)

/-- The pass does what is claimed exactly when the first BAR that it moves clears the end of
every BAR in the window, and every stray BAR for which there is room is a 64-bit one that fits
behind the pointer. -/
theorem relocates_iff (fs : List PciFunction) : Relocates fs ↔ Spares fs := by
  constructor
  · intro h
    refine ⟨fun i f hf hmoves hearlier g hg b hb hused => ?_, fun i f hf hstray hroom => ?_⟩
    · obtain ⟨f', hpass⟩ := exists_passes hf
      have hstart := pointer_eq_window hearlier
      have hmoves' : f.bar0.Moves (pointer fs i) := hstart ▸ hmoves
      obtain ⟨j, hj⟩ := List.getElem?_of_mem hg
      obtain ⟨k, hk⟩ := List.getElem?_of_mem hb
      obtain ⟨g', hg'⟩ := exists_passes hj
      have hapart := h.apart i f f' hpass (hpass.ne_iff.mpr hmoves') j g g' hg' k b
        (hg'.getElem?_bars hused hk) hused.memory hused.pos fun heq => by
          obtain ⟨rfl, rfl⟩ := Prod.mk.inj heq
          obtain rfl : g = f := Option.some.inj (hj.symm.trans hf)
          obtain rfl : g.bar0 = b := Option.some.inj hk
          exact hmoves.stray.not_used hused
      have hlt : b.address < window fs := address_lt_firstFree hg hb hused.memory hused.lt
      have hout := hpass.outcome
      rw [hstart] at hout
      cases hout with
      | kept hnot => exact absurd hmoves hnot
      | moved =>
        obtain ⟨hle, hsize⟩ := hmoves.le_alignUp
        have hstop : b.address < b.stop := Nat.lt_add_of_pos_right (Nat.two_pow_pos _)
        unfold Apart at hapart
        change (f.bar0.moveTo _).stop ≤ _ ∨ _ ≤ (f.bar0.moveTo _).address at hapart
        rw [hmoves.stop_moveTo, hmoves.address_moveTo] at hapart
        omega
    · obtain ⟨f', hpass⟩ := exists_passes hf
      have hmoves := hpass.ne_iff.mp (h.placed i f f' hpass hstray hroom)
      exact ⟨hmoves.mem64, hmoves.fits⟩
  · intro h
    refine ⟨fun i f f' hpass hne => ?_, fun i f f' hpass hne j g g' hg k b hb hmemory hpos hij => ?_,
      fun i f f' hpass => ?_, fun i f f' hpass hstray hroom => ?_⟩
    · have hmoves := hpass.ne_iff.mp hne
      cases hpass.outcome with
      | kept hnot => exact absurd hmoves hnot
      | moved =>
        constructor
        · show f.bar0.size ∣ (f.bar0.moveTo _).address
          rw [hmoves.address_moveTo]
          exact Lib.dvd_alignUp _ _
        · show (f.bar0.moveTo _).stop ≤ _
          rw [hmoves.stop_moveTo]
          exact hmoves.fits
    · have hmoves := hpass.ne_iff.mp hne
      have hspared := h.apart hpass hmoves hg hb hmemory hpos hij
      cases hpass.outcome with
      | kept hnot => exact absurd hmoves hnot
      | moved => exact hspared
    · cases hout : hpass.outcome with
      | kept => exact ⟨rfl, fun _ => rfl⟩
      | moved hmoves =>
        exact ⟨rfl, fun heq => absurd heq (hpass.ne_iff.mpr hmoves)⟩
    · obtain ⟨hkind, hfits⟩ := h.wide i f hpass.before hstray hroom
      exact hpass.ne_iff.mpr ⟨hstray, hkind, hfits⟩

def noBar : Bar := ⟨.unused, false, 32, 0, 0, rfl, by decide, by decide, fun _ => rfl⟩

def display : PciFunction :=
  ⟨0, 7, ⟨.mem32, true, 24, 0x80, 0, by simp [BarKind.Sizes], by decide, by decide, fun _ => rfl⟩,
    List.replicate 5 noBar, rfl, by decide⟩

def controller : PciFunction :=
  ⟨0, 0, ⟨.mem64, false, 14, 0, 0, by simp [BarKind.Sizes], by decide, by decide, fun _ => rfl⟩,
    List.replicate 4 noBar, rfl, by decide⟩

def narrowController : PciFunction :=
  ⟨0, 0, ⟨.mem32, false, 12, 0, 0, by simp [BarKind.Sizes], by decide, by decide, fun _ => rfl⟩,
    List.replicate 5 noBar, rfl, by decide⟩

/-- The controller's registers are put into the middle of the display's memory, and a 32-bit BAR
is left without an address. -/
theorem relocates_fails :
    ¬ Relocates [display, controller] ∧ ¬ Relocates [narrowController] := by
  constructor
  · intro h
    obtain ⟨f', hf⟩ := @exists_passes _ [display, controller] 1 rfl
    obtain ⟨g', hg⟩ := @exists_passes _ [display, controller] 0 rfl
    have hf' : (f'.bar0.address, f'.bar0.size) = (0x80100000, 2 ^ 14) := by
      have hafter : (relocated [display, controller])[1]?.map
          (fun f => (f.bar0.address, f.bar0.size)) = some (0x80100000, 2 ^ 14) := by
        decide
      rw [hf.after] at hafter
      exact Option.some.inj hafter
    have hg' : (g'.bar0.kind, g'.bar0.address, g'.bar0.size) =
        (.mem32, 0x80000000, 2 ^ 24) := by
      have hafter : (relocated [display, controller])[0]?.map
          (fun f => (f.bar0.kind, f.bar0.address, f.bar0.size)) =
            some (.mem32, 0x80000000, 2 ^ 24) := by
        decide
      rw [hg.after] at hafter
      exact Option.some.inj hafter
    simp only [Prod.mk.injEq] at hf' hg'
    have hne : f'.bar0 ≠ controller.bar0 := fun heq => by
      have hzero : controller.bar0.address = 0 := by decide
      rw [heq] at hf'
      omega
    have hapart := h.apart 1 _ f' hf hne 0 _ g' hg 0 g'.bar0 rfl (Or.inl hg'.1) (by omega)
      (by decide)
    unfold Apart Bar.stop at hapart
    omega
  · intro h
    obtain ⟨f', hf⟩ := @exists_passes _ [narrowController] 0 rfl
    have hroom : Room ((relocated [narrowController]).take 0 ++ [narrowController].drop 0)
        narrowController.bar0 := by
      refine ⟨0, Nat.dvd_zero _, by decide, fun f hmem c hc hused => ?_⟩
      obtain rfl : f = narrowController := by simpa using hmem
      have hzero : ∀ c ∈ narrowController.bars, c.address = 0 := by decide
      exact absurd (hzero c hc) hused.pos
    have hmoves := hf.ne_iff.mp (h.placed 0 _ f' hf
      ⟨Or.inl rfl, Or.inl (by decide), by decide⟩ hroom)
    exact absurd hmoves.mem64 (by decide)

end Vibra.Pci
