import SecureCore.FaultyFile

/-! Properties of a file that only some writes can disturb. A shield is such a
property with a condition on what may be written where: data that meets it can be
written, as a whole or as far as a failing call gets, in one piece or in several. -/

namespace SecureCore.ShieldedWrites

open LittleEndian (Bytes)
open FaultyFile FallibleState ByteImage

/-- `harmless position data`: the property survives this data at this position. -/
structure Shield (kept : File → Prop) (harmless : Nat → Bytes → Prop) : Prop where
  quiet : ∀ {f : File} (cursor : Nat) (script : List (Option Fault)), kept f →
    kept { f with cursor := cursor, script := script }
  stored : ∀ {f : File} {data : Bytes}, kept f → harmless f.cursor data → kept (put data f)
  front : ∀ {position : Nat} {data more : Bytes}, harmless position (data ++ more) →
    harmless position data
  back : ∀ {position : Nat} {data more : Bytes}, harmless position (data ++ more) →
    harmless (position + data.length) more

namespace Shield

variable {kept : File → Prop} {harmless : Nat → Bytes → Prop}

theorem seek (shield : Shield kept harmless) {position : Nat} {data : Bytes}
    (fine : harmless position data) :
    Spec kept (seek position) (fun _ f => kept f ∧ harmless f.cursor data) (fun _ => kept) := by
  intro f hf
  cases hnext : f.script.headD none with
  | none =>
    rw [seek_works hnext]
    exact ⟨shield.quiet position f.script.tail hf, fine⟩
  | some fault =>
    rw [seek_fails hnext]
    exact shield.quiet f.cursor f.script.tail hf

theorem writeAll (shield : Shield kept harmless) (data more : Bytes) :
    Spec (fun f => kept f ∧ harmless f.cursor (data ++ more)) (writeAll data)
      (fun _ f => kept f ∧ harmless f.cursor more) (fun _ => kept) := by
  rintro f ⟨hf, hfine⟩
  have hscript := shield.quiet f.cursor f.script.tail hf
  rcases writeAll_cases data f with hrun | ⟨code, progress, hrun⟩
  · rw [hrun]
    exact ⟨shield.stored hscript (shield.front hfine), shield.back hfine⟩
  · rw [hrun]
    have hfront : harmless f.cursor data := shield.front hfine
    rw [← List.take_append_drop progress data] at hfront
    exact shield.stored hscript (shield.front hfront)

theorem and {kept' : File → Prop} {harmless' : Nat → Bytes → Prop} (h : Shield kept harmless)
    (h' : Shield kept' harmless') : Shield (fun f => kept f ∧ kept' f)
      (fun position data => harmless position data ∧ harmless' position data) where
  quiet cursor script hf := ⟨h.quiet cursor script hf.1, h'.quiet cursor script hf.2⟩
  stored hf fine := ⟨h.stored hf.1 fine.1, h'.stored hf.2 fine.2⟩
  front fine := ⟨h.front fine.1, h'.front fine.2⟩
  back fine := ⟨h.back fine.1, h'.back fine.2⟩

theorem all {ι : Type} {items : List ι} {kept : ι → File → Prop}
    {harmless : ι → Nat → Bytes → Prop} (h : ∀ i ∈ items, Shield (kept i) (harmless i)) :
    Shield (fun f => ∀ i ∈ items, kept i f)
      (fun position data => ∀ i ∈ items, harmless i position data) where
  quiet cursor script hf i hi := (h i hi).quiet cursor script (hf i hi)
  stored hf fine i hi := (h i hi).stored (hf i hi) (fine i hi)
  front fine i hi := (h i hi).front (fine i hi)
  back fine i hi := (h i hi).back (fine i hi)

end Shield

section Regions

def Holds (start : Nat) (block : Bytes) (f : File) : Prop :=
  f.exists? = true ∧ start + block.length ≤ f.bytes.length ∧
    slice f.bytes start block.length = block

def Clears (start count position : Nat) (data : Bytes) : Prop :=
  position + data.length ≤ start ∨ start + count ≤ position

theorem shield_holds (start : Nat) (block : Bytes) :
    Shield (Holds start block) (Clears start block.length) where
  quiet _ _ h := h
  stored {f data} h clears := by
    obtain ⟨hpresent, hfits, hslice⟩ := h
    refine ⟨hpresent, hfits.trans (length_le_splice _ _ _), ?_⟩
    exact (slice_splice_inside hfits clears.symm).trans hslice
  front {position data more} h := by
    rw [Clears, List.length_append] at h
    rw [Clears]
    omega
  back {position data more} h := by
    rw [Clears, List.length_append] at h
    rw [Clears]
    omega

end Regions

section Cells

def CellIs (index : Nat) (kind : UInt8 → Prop) (f : File) : Prop :=
  ∃ byte, f.bytes[index]? = some byte ∧ kind byte

def CellKept (index : Nat) (kind : UInt8 → Prop) (position : Nat) (data : Bytes) : Prop :=
  position ≤ index → ∀ byte, data[index - position]? = some byte → kind byte

theorem shield_cell (index : Nat) (kind : UInt8 → Prop) :
    Shield (CellIs index kind) (CellKept index kind) where
  quiet _ _ h := h
  stored {f data} h keeps := by
    obtain ⟨byte, hbyte, hkind⟩ := h
    have hinside : index < f.bytes.length := (List.getElem?_eq_some_iff.mp hbyte).1
    by_cases hcovered : f.cursor ≤ index ∧ index < f.cursor + data.length
    · obtain ⟨hfrom, hto⟩ := hcovered
      refine ⟨data.get ⟨index - f.cursor, by omega⟩, ?_, keeps hfrom _ ?_⟩
      · change (splice f.bytes f.cursor data)[index]? = _
        rw [getElem?_splice (by omega), if_neg (by omega), if_pos hto]
        simp
      · simp
    · refine ⟨byte, ?_, hkind⟩
      change (splice f.bytes f.cursor data)[index]? = _
      rw [getElem?_splice_outside hinside (by omega)]
      exact hbyte
  front {position data more} h := by
    intro hfrom byte hbyte
    refine h hfrom byte ?_
    rw [List.getElem?_append_left (List.getElem?_eq_some_iff.mp hbyte).1]
    exact hbyte
  back {position data more} h := by
    intro hfrom byte hbyte
    refine h (by omega) byte ?_
    rw [List.getElem?_append_right (by omega), Nat.sub_sub]
    exact hbyte

end Cells

end SecureCore.ShieldedWrites
