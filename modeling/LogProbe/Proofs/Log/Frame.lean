import LogProbe.Log.Placement
import LogProbe.Proofs.Edit.Acceptance
import LogProbe.Proofs.Syntax.Spans

/-! The edit of a log as a frame. Of the stretch that it replaces, an edit gives up the beginning
and puts the rest back; the log stands ahead of what it puts back or behind it. -/
namespace LogProbe
open Edit

/-- An edit that takes out the text from `full` to `start` and keeps the text from there to `stop`,
between `ahead` and `behind`. -/
structure Frame where
  full : Nat
  start : Nat
  stop : Nat
  ahead : Text
  behind : Text

namespace Frame
variable {source : Text} {f : Frame}

def insertion (offset : Nat) (text : Text) : Frame := ⟨offset, offset, offset, text, []⟩

def edit? (source : Text) (f : Frame) : Option Edit :=
  (source.slice? f.start f.stop).map fun kept => ⟨f.full, f.stop, f.ahead ++ kept ++ f.behind⟩

/-- All offsets of a frame are boundaries, in order. -/
structure Sound (source : Text) (f : Frame) : Prop where
  full_le : f.full ≤ f.start
  start_le : f.start ≤ f.stop
  full_boundary : source.isBoundary f.full = true
  start_boundary : source.isBoundary f.start = true
  stop_boundary : source.isBoundary f.stop = true

/-- The four parts of a text that a frame makes. -/
structure Splits (source : Text) (f : Frame) (above dropped kept below : Text) : Prop where
  text : source = above ++ dropped ++ kept ++ below
  full : above.size = f.full
  start : (above ++ dropped).size = f.start
  stop : (above ++ dropped ++ kept).size = f.stop

theorem sound_insertion {offset : Nat} (h : source.isBoundary offset = true) (text : Text) :
    (insertion offset text).Sound source := ⟨Nat.le_refl _, Nat.le_refl _, h, h, h⟩

theorem edit?_insertion {offset : Nat} (h : source.isBoundary offset = true) (text : Text) :
    (insertion offset text).edit? source = some (.insertion offset text) := by
  obtain ⟨a, b, rfl, rfl⟩ := Text.isBoundary_iff.mp h
  have hslice : (a ++ b).slice? a.size a.size = some [] := by
    simpa using Text.slice?_append a [] b
  simp [edit?, insertion, hslice, Edit.insertion]

/-- An insertion takes nothing out and keeps nothing in. -/
theorem Splits.of_insertion {offset : Nat} {text above dropped kept below : Text}
    (h : (insertion offset text).Splits source above dropped kept below) :
    dropped = [] ∧ kept = [] := by
  have hfull : above.size = offset := h.full
  have hstart : (above ++ dropped).size = offset := h.start
  have hstop : (above ++ dropped ++ kept).size = offset := h.stop
  simp only [Text.size_append] at hstart hstop
  exact ⟨Text.size_eq_zero (by omega), Text.size_eq_zero (by omega)⟩

theorem Sound.splits (h : f.Sound source) :
    ∃ above dropped kept below, f.Splits source above dropped kept below := by
  obtain ⟨upper, kept, below, rfl, hstart, hstop⟩ :=
    Text.exists_split h.start_le h.start_boundary h.stop_boundary
  have hfull := h.full_boundary
  rw [List.append_assoc, Text.isBoundary_append (by have := h.full_le; omega)] at hfull
  obtain ⟨above, dropped, rfl, hsize⟩ := Text.isBoundary_iff.mp hfull
  exact ⟨above, dropped, kept, below, rfl, hsize, hstart, hstop⟩

/-- What a frame leaves of the text. -/
theorem Splits.applyAll {above dropped kept below : Text}
    (h : f.Splits source above dropped kept below) :
    ∃ e, f.edit? source = some e ∧
      Edit.applyAll source [e] = .ok (above ++ f.ahead ++ kept ++ f.behind ++ below) := by
  obtain ⟨rfl, hfull, hstart, hstop⟩ := h
  have hkept : (above ++ dropped ++ kept ++ below).slice? f.start f.stop = some kept := by
    rw [← hstart, ← hstop]
    exact Text.slice?_append (above ++ dropped) kept below
  refine ⟨⟨f.full, f.stop, f.ahead ++ kept ++ f.behind⟩, by rw [edit?, hkept, Option.map_some], ?_⟩
  have hone : Edit.applyAll (above ++ (dropped ++ kept) ++ below)
      [⟨f.full, f.stop, f.ahead ++ kept ++ f.behind⟩] =
        .ok (above ++ (f.ahead ++ kept ++ f.behind) ++ below) :=
    applyAll_one above (dropped ++ kept) below hfull (by rw [← List.append_assoc, hstop])
  simpa only [List.append_assoc] using hone

theorem Sound.exists_edit? (h : f.Sound source) :
    ∃ e, f.edit? source = some e ∧ e.Fits source := by
  obtain ⟨kept, hkept⟩ := Option.isSome_iff_exists.mp
    (Text.isSome_slice?_iff.mpr ⟨h.start_le, h.start_boundary, h.stop_boundary⟩)
  refine ⟨⟨f.full, f.stop, f.ahead ++ kept ++ f.behind⟩, by rw [edit?, hkept, Option.map_some], ?_⟩
  exact ⟨Nat.le_trans h.full_le h.start_le, Text.le_size_of_isBoundary h.stop_boundary,
    h.full_boundary, h.stop_boundary⟩

end Frame

namespace Placement
variable {source : Text} {r : Placement}

/-- The place that a log is put before, behind or into. -/
def place : Placement → Place
  | before p _ => p
  | after p => p
  | inside p => p

/-- The frame of a log at its place. -/
def frame (log : Text) : Placement → Frame
  | inside p => .insertion p.label.firstTokenEnd ('\n' :: log)
  | before p lead =>
    if standsInBlock p then .insertion p.label.start (log ++ ['\n'] ++ lead)
    else ⟨p.label.fullStart, p.label.start, p.label.stop,
      " \x7b\n".toList ++ log ++ ['\n'] ++ lead, "\n\x7d".toList⟩
  | after p =>
    if standsInBlock p then .insertion p.label.stop ('\n' :: log)
    else ⟨p.label.fullStart, p.label.start, p.label.stop, " \x7b\n".toList,
      '\n' :: log ++ "\n\x7d".toList⟩

theorem frame_sound (h : r.place.label.Sound source) (log : Text) :
    (r.frame log).Sound source := by
  have hblock (ahead behind : Text) : Frame.Sound source
      ⟨r.place.label.fullStart, r.place.label.start, r.place.label.stop, ahead, behind⟩ :=
    ⟨h.fullStart_le, h.start_le, h.fullStart_boundary, h.start_boundary, h.stop_boundary⟩
  cases r with
  | inside p => exact Frame.sound_insertion h.firstTokenEnd_boundary _
  | before p lead =>
    rw [frame]
    split
    · exact Frame.sound_insertion h.start_boundary _
    · exact hblock _ _
  | after p =>
    rw [frame]
    split
    · exact Frame.sound_insertion h.stop_boundary _
    · exact hblock _ _

/-- A log is put at its place by its frame. -/
theorem render?_eq_edit? (h : r.place.label.Sound source) (log : Text) :
    r.render? source log = (r.frame log).edit? source := by
  cases r with
  | inside p => exact (Frame.edit?_insertion h.firstTokenEnd_boundary _).symm
  | before p lead =>
    rw [render?, frame]
    split
    · exact (Frame.edit?_insertion h.start_boundary _).symm
    · simp [Frame.edit?, Place.text?, Node.text?, block, Place.label]
  | after p =>
    rw [render?, frame]
    split
    · exact (Frame.edit?_insertion h.stop_boundary _).symm
    · simp [Frame.edit?, Place.text?, Node.text?, block, Place.label]

/-- A log at a place whose offsets are sound is an edit that fits into the text. -/
theorem exists_render? (h : r.place.label.Sound source) (log : Text) :
    ∃ e, r.render? source log = some e ∧ e.Fits source := by
  rw [render?_eq_edit? h]
  exact (frame_sound h log).exists_edit?

theorem fits_of_render? {log : Text} {e : Edit} (h : r.place.label.Sound source)
    (he : r.render? source log = some e) : e.Fits source := by
  obtain ⟨e', he', hfits⟩ := exists_render? h log
  obtain rfl : e' = e := Option.some.inj (he'.symm.trans he)
  exact hfits

end Placement
end LogProbe
