import ElectrumX.Base.FlatFile
import ElectrumX.Base.Numeral
import Std.Data.ExtTreeMap

/-!
# Files split on disk

A logical file is one byte array that is cut into pieces of `file_size` bytes, each in a file of
its own. Every round of a write is a write of the array that stays inside one piece, and every
round of a read returns bytes of the array up to the end of a piece.
-/

namespace ElectrumX.Lib
open ElectrumX.Base Std

/-- The contents of the files on disk by their names. -/
abbrev FileTable := ExtTreeMap String Bytes

/-- `LogicalFile.__init__`, `lib/util.py:199–201`. -/
structure LogicalFile where
  namePrefix : String
  digits : Nat
  fileSize : Nat
  fileSize_pos : 0 < fileSize

namespace LogicalFile
variable (f : LogicalFile)

/-- The decimal digits of a file number, with zeros in front up to a width. -/
def decimal (width n : Nat) : List Nat :=
  (if n = 0 then [0] else (Nat.digits 10 n).reverse).leftpad width 0

/-- `self.filename_fmt.format(file_num)`, `lib/util.py:200` and `238`. -/
def fileName (fileNum : Nat) : String :=
  f.namePrefix ++ String.ofList ((decimal f.digits fileNum).map Nat.digitChar)

/-- `f.read(size)` on a file positioned at an offset. -/
def fileRead (contents : Bytes) (offset : Nat) (size : Int) : Bytes :=
  if size < 0 then contents.drop offset else (contents.drop offset).take size.toNat

/-- `LogicalFile.read`, `lib/util.py:208–221`, for a number of rounds; none when the loop has not
ended by then. -/
def readLoop (disk : FileTable) : Nat → List Bytes → Nat → Int → Option Bytes
  | 0, _, _, _ => none
  | rounds + 1, parts, start, size =>
    if size = 0 then some parts.flatten
    else match disk[f.fileName (start / f.fileSize)]? with
    | none => some parts.flatten
    | some contents =>
      let part := fileRead contents (start % f.fileSize) size
      if part = [] then some parts.flatten
      else readLoop disk rounds (parts ++ [part]) (start + part.length)
        (if 0 < size then size - part.length else size)

/-- `LogicalFile.read`, `lib/util.py:203–221`. -/
def read (disk : FileTable) (rounds start : Nat) (size : Int) : Option Bytes :=
  f.readLoop disk rounds [] start size

/-- The number of bytes that a round of `write` puts into one file, `lib/util.py:226`. -/
def roundSize (start : Nat) (b : Bytes) : Nat := min b.length (f.fileSize - start % f.fileSize)

/-- A round of `write`, `lib/util.py:226–228`; a file that does not exist is created. -/
def writeRound (disk : FileTable) (start : Nat) (b : Bytes) : FileTable :=
  let contents := disk[f.fileName (start / f.fileSize)]?.getD []
  disk.insert (f.fileName (start / f.fileSize))
    (FlatFile.write contents (start % f.fileSize) (b.take (f.roundSize start b)))

theorem roundSize_pos {start : Nat} {b : Bytes} (hb : b ≠ []) : 0 < f.roundSize start b := by
  have hm := Nat.mod_lt start f.fileSize_pos
  have hl := List.length_pos_iff.mpr hb
  unfold roundSize
  omega

/-- `LogicalFile.write`, `lib/util.py:223–230`. -/
def write (disk : FileTable) (start : Nat) (b : Bytes) : FileTable :=
  if b = [] then disk
  else write (f.writeRound disk start b) (start + f.roundSize start b)
    (b.drop (f.roundSize start b))
termination_by b.length
decreasing_by
  have hp := @roundSize_pos f start b ‹b ≠ []›
  have hl := List.length_pos_iff.mpr ‹b ≠ []›
  rw [List.length_drop]
  omega

/-! ### File names -/

theorem value_decimal (width n : Nat) : Numeral.value 10 (decimal width n) = n := by
  rw [decimal, List.leftpad, Numeral.value_replicate_append]
  split
  · next h => rw [h]; rfl
  · rw [Numeral.value, List.reverse_reverse, Nat.ofDigits_digits]

theorem decimal_lt {width n d : Nat} (h : d ∈ decimal width n) : d < 10 := by
  rw [decimal, List.leftpad] at h
  rcases List.mem_append.mp h with h | h
  · rw [(List.mem_replicate.mp h).2]
    omega
  · split at h
    · rw [List.mem_singleton.mp h]
      omega
    · exact Nat.digits_lt_base (by omega) (List.mem_reverse.mp h)

/-- The digits are read back from their characters. -/
theorem map_digitChar_inj {ds es : List Nat} (hd : ∀ d ∈ ds, d < 10) (he : ∀ e ∈ es, e < 10)
    (h : ds.map Nat.digitChar = es.map Nat.digitChar) : ds = es := by
  have hback : ∀ i : Fin 10, (Nat.digitChar i).toNat - 48 = i.val := by decide
  have hmap : ∀ xs : List Nat, (∀ d ∈ xs, d < 10) →
      (xs.map Nat.digitChar).map (fun raw ↦ raw.toNat - 48) = xs := by
    intro xs hxs
    rw [List.map_map]
    conv_rhs => rw [← List.map_id xs]
    exact List.map_congr_left fun d hd ↦ hback ⟨d, hxs d hd⟩
  rw [← hmap ds hd, h, hmap es he]

/-- Two file numbers have two names. -/
theorem fileName_inj {m n : Nat} : f.fileName m = f.fileName n ↔ m = n := by
  constructor
  · intro h
    have hs := congrArg String.toList h
    rw [fileName, fileName, String.toList_append, String.toList_append,
      List.append_cancel_left_eq, String.toList_ofList, String.toList_ofList] at hs
    have hd : decimal f.digits m = decimal f.digits n :=
      map_digitChar_inj (fun d ↦ decimal_lt) (fun d ↦ decimal_lt) hs
    rw [← value_decimal f.digits m, hd, value_decimal]
  · rintro rfl
    rfl

/-! ### The array -/

/-- The piece of the array in a file. -/
def piece (raw : Bytes) (fileNum : Nat) : Bytes := (raw.drop (fileNum * f.fileSize)).take f.fileSize

/-- The files hold the pieces of an array, and there is no file behind its end. -/
def Holds (disk : FileTable) (raw : Bytes) : Prop :=
  ∀ fileNum, disk[f.fileName fileNum]? =
    if fileNum * f.fileSize < raw.length then some (f.piece raw fileNum) else none

theorem getElem?_piece (raw : Bytes) (fileNum i : Nat) :
    (f.piece raw fileNum)[i]? =
      if i < f.fileSize then raw[fileNum * f.fileSize + i]? else none := by
  rw [piece, List.getElem?_take]
  split
  · rw [List.getElem?_drop]
  · rfl

/-- A file that does not exist counts as an empty piece. -/
theorem Holds.getD {f : LogicalFile} {disk : FileTable} {raw : Bytes} (h : f.Holds disk raw)
    (fileNum : Nat) : disk[f.fileName fileNum]?.getD [] = f.piece raw fileNum := by
  rw [h fileNum]
  split
  · rfl
  · next hlen => rw [piece, List.drop_eq_nil_of_le (by omega), List.take_nil]; rfl

theorem div_mul_add_mod (start : Nat) :
    start / f.fileSize * f.fileSize + start % f.fileSize = start := by
  rw [Nat.mul_comm]
  exact Nat.div_add_mod start f.fileSize

/-- Writing inside one piece is a write of the array. -/
theorem Holds.insert {f : LogicalFile} {disk : FileTable} {raw : Bytes} (h : f.Holds disk raw)
    {start : Nat} (hs : start ≤ raw.length) {part : Bytes} (hne : part ≠ [])
    (hroom : start % f.fileSize + part.length ≤ f.fileSize) :
    f.Holds (disk.insert (f.fileName (start / f.fileSize))
      (FlatFile.write (f.piece raw (start / f.fileSize)) (start % f.fileSize) part))
      (FlatFile.write raw start part) := by
  have hpos := List.length_pos_iff.mpr hne
  have hsplit := f.div_mul_add_mod start
  intro fileNum
  rw [ExtTreeMap.getElem?_insert, FlatFile.length_write hs]
  rcases Nat.lt_trichotomy fileNum (start / f.fileSize) with hk | rfl | hk
  · -- a file in front is not changed
    have hend : (fileNum + 1) * f.fileSize ≤ start / f.fileSize * f.fileSize :=
      Nat.mul_le_mul_right _ hk
    rw [Nat.add_mul, Nat.one_mul] at hend
    rw [if_neg (by simpa [f.fileName_inj] using hk.ne'), h fileNum]
    generalize hlow : fileNum * f.fileSize = low at *
    rw [if_pos (by omega), if_pos (by omega)]
    congr 1
    apply List.ext_getElem?
    intro i
    rw [getElem?_piece, getElem?_piece, FlatFile.getElem?_write hs, hlow]
    split
    · rw [if_neg (by omega)]
    · rfl
  · rw [if_pos (by simp), if_pos (by omega)]
    congr 1
    have hp : start % f.fileSize ≤ (f.piece raw (start / f.fileSize)).length := by
      rw [piece, List.length_take, List.length_drop]
      omega
    apply List.ext_getElem?
    intro i
    rw [FlatFile.getElem?_write hp, getElem?_piece, getElem?_piece, FlatFile.getElem?_write hs]
    generalize start / f.fileSize * f.fileSize = low at *
    by_cases hi : start % f.fileSize ≤ i ∧ i < start % f.fileSize + part.length
    · rw [if_pos hi, if_pos (by omega), if_pos (by omega)]
      congr 1
      omega
    · rw [if_neg hi]
      split
      · rw [if_neg (by omega)]
      · rfl
  · -- a file behind is neither made nor changed
    have hend : (start / f.fileSize + 1) * f.fileSize ≤ fileNum * f.fileSize :=
      Nat.mul_le_mul_right _ hk
    rw [Nat.add_mul, Nat.one_mul] at hend
    rw [if_neg (by simpa [f.fileName_inj] using hk.ne), h fileNum]
    generalize hlow : fileNum * f.fileSize = low at *
    by_cases hl : low < raw.length
    · rw [if_pos hl, if_pos (by omega)]
      congr 1
      apply List.ext_getElem?
      intro i
      rw [getElem?_piece, getElem?_piece, FlatFile.getElem?_write hs, hlow]
      split
      · rw [if_neg (by omega)]
      · rfl
    · rw [if_neg hl, if_neg (by omega)]

/-- A round of `write` is a write of the array. -/
theorem Holds.writeRound {f : LogicalFile} {disk : FileTable} {raw : Bytes} (h : f.Holds disk raw)
    {start : Nat} (hs : start ≤ raw.length) {b : Bytes} (hb : b ≠ []) :
    f.Holds (f.writeRound disk start b)
      (FlatFile.write raw start (b.take (f.roundSize start b))) := by
  have hpos := @roundSize_pos f start b hb
  have hmod := Nat.mod_lt start f.fileSize_pos
  have hl := List.length_pos_iff.mpr hb
  unfold LogicalFile.writeRound
  dsimp only
  rw [h.getD]
  apply h.insert hs
  · intro hn
    rcases List.take_eq_nil_iff.mp hn with hn | hn
    · omega
    · exact hb hn
  · rw [List.length_take, roundSize]
    omega

/-- `write` is a write of the array. -/
theorem Holds.write {f : LogicalFile} {disk : FileTable} {raw : Bytes} (h : f.Holds disk raw)
    {start : Nat} (hs : start ≤ raw.length) (b : Bytes) :
    f.Holds (f.write disk start b) (FlatFile.write raw start b) := by
  -- by the rounds of the loop: the bytes left become fewer
  induction hn : b.length using Nat.strong_induction_on generalizing disk raw start b with
  | _ n ih =>
    rw [LogicalFile.write]
    split
    · next hb => rwa [hb, FlatFile.write, if_pos rfl]
    · next hb =>
      have hpos := @roundSize_pos f start b hb
      have hlen : (b.take (f.roundSize start b)).length = f.roundSize start b := by
        rw [List.length_take, roundSize]
        omega
      have hw := h.writeRound hs hb
      have hend : start + f.roundSize start b ≤
          (FlatFile.write raw start (b.take (f.roundSize start b))).length := by
        rw [FlatFile.length_write hs, hlen]
        exact le_max_right _ _
      have hfew : (b.drop (f.roundSize start b)).length < n := by
        have := List.length_pos_iff.mpr hb
        rw [List.length_drop]
        omega
      have hrest := ih _ hfew hw hend _ rfl
      have hjoin := FlatFile.write_write hs b (f.roundSize start b)
      rw [hlen] at hjoin
      rwa [hjoin] at hrest

/-! ### Reading -/

/-- What a round of `read` returns: bytes of the array up to the end of a piece. -/
theorem fileRead_piece (raw : Bytes) (start : Nat) (size : Int) :
    fileRead (f.piece raw (start / f.fileSize)) (start % f.fileSize) size =
      fileRead ((raw.drop start).take (f.fileSize - start % f.fileSize)) 0 size := by
  have hp : (f.piece raw (start / f.fileSize)).drop (start % f.fileSize) =
      (raw.drop start).take (f.fileSize - start % f.fileSize) := by
    rw [piece, List.drop_take, List.drop_drop, f.div_mul_add_mod]
  simp only [fileRead, hp, List.drop_zero]

/-- What is wanted of a byte string is wanted first of its beginning, and then of the rest. -/
theorem fileRead_take_append (xs : Bytes) (n : Nat) (size : Int) (part : Bytes)
    (hp : part = fileRead (xs.take n) 0 size) :
    part ++ fileRead (xs.drop part.length) 0 (if 0 < size then size - part.length else size) =
      fileRead xs 0 size := by
  have hpre : part <+: xs := by
    rw [hp, fileRead]
    split
    · exact List.take_prefix n xs
    · exact (List.take_prefix _ _).trans (List.take_prefix n xs)
  obtain ⟨rest, hrest⟩ := hpre
  subst hrest
  rw [List.drop_left]
  simp only [fileRead, List.drop_zero] at hp ⊢
  by_cases hs : size < 0
  · rw [if_neg (show ¬0 < size by omega), if_pos hs, if_pos hs]
  · have hl : part.length ≤ size.toNat := by
      rw [if_neg hs] at hp
      rw [hp, List.length_take]
      exact min_le_left _ _
    rw [if_neg hs, List.take_append, List.take_of_length_le hl]
    congr 1
    by_cases h0 : 0 < size
    · rw [if_pos h0, if_neg (by omega)]
      congr 1
      omega
    · rw [if_neg h0, if_neg hs]
      congr 1
      omega

/-- Nothing is read only at the end. -/
theorem eq_nil_of_fileRead {xs : Bytes} {n : Nat} {size : Int} (hn : 0 < n) (hs : size ≠ 0)
    (h : fileRead (xs.take n) 0 size = []) : xs = [] := by
  rw [← List.length_eq_zero_iff] at h ⊢
  unfold fileRead at h
  split at h
  · rw [List.drop_zero, List.length_take] at h
    omega
  · rw [List.drop_zero, List.length_take, List.length_take] at h
    omega

theorem length_fileRead_le (xs : Bytes) (size : Int) : (fileRead xs 0 size).length ≤ xs.length := by
  unfold fileRead
  split
  · rw [List.drop_zero]
  · exact (List.length_take_le' _ _).trans (by rw [List.drop_zero])

/-- Enough rounds of `read` return what is wanted of the rest of the array. -/
theorem Holds.readLoop {f : LogicalFile} {disk : FileTable} {raw : Bytes} (h : f.Holds disk raw)
    {rounds start : Nat} (hr : raw.length - start < rounds) (parts : List Bytes) (size : Int) :
    f.readLoop disk rounds parts start size =
      some (parts.flatten ++ fileRead (raw.drop start) 0 size) := by
  induction rounds generalizing start parts size with
  | zero => omega
  | succ rounds ih =>
    rw [LogicalFile.readLoop]
    split
    · next hz =>
      rw [hz, fileRead, if_neg (by omega)]
      simp
    · next hz =>
      rw [h (start / f.fileSize)]
      have hsplit := f.div_mul_add_mod start
      have hmod := Nat.mod_lt start f.fileSize_pos
      by_cases hl : start / f.fileSize * f.fileSize < raw.length
      · rw [if_pos hl]
        dsimp only
        rw [fileRead_piece]
        generalize hp :
          fileRead ((raw.drop start).take (f.fileSize - start % f.fileSize)) 0 size = part
        have hjoin := fileRead_take_append (raw.drop start) (f.fileSize - start % f.fileSize) size
          part hp.symm
        split
        · next hnil =>
          have hend := eq_nil_of_fileRead (by omega) hz (hp.trans hnil)
          rw [hend]
          simp [fileRead]
        · next hne =>
          have hpos := List.length_pos_iff.mpr hne
          have hle := congrArg List.length hjoin
          have hall : (fileRead (raw.drop start) 0 size).length ≤ raw.length - start := by
            rw [← List.length_drop]
            exact length_fileRead_le _ _
          rw [List.length_append] at hle
          rw [ih (by omega), List.flatten_append, List.flatten_singleton, List.append_assoc,
            ← List.drop_drop, hjoin]
      · rw [if_neg hl, List.drop_eq_nil_of_le (by omega)]
        simp [fileRead]

/-- The disks of the runs of writes that start at or in front of the end of what has been written,
each with the array that the writes describe; reads change nothing. -/
inductive FileRun (f : LogicalFile) : FileTable → Bytes → Prop
  | start {disk : FileTable} (h : ∀ fileNum, disk[f.fileName fileNum]? = none) : FileRun f disk []
  | write {disk : FileTable} {raw : Bytes} (r : FileRun f disk raw) {start : Nat}
      (hs : start ≤ raw.length)
      (b : Bytes) : FileRun f (f.write disk start b) (FlatFile.write raw start b)

/-- The files hold the array after every run. -/
theorem FileRun.holds {f : LogicalFile} {disk : FileTable} {raw : Bytes} (r : FileRun f disk raw) :
    f.Holds disk raw := by
  induction r with
  | start h =>
    intro fileNum
    rw [h fileNum, if_neg (by simp)]
  | write r hs b ih => exact ih.write hs b

/-- After every run a write changes the bytes that it covers and no others, and reads, for any
large enough number of rounds, return the bytes of the array. -/
theorem FileRun.behaves {f : LogicalFile} {disk : FileTable} {raw : Bytes}
    (r : FileRun f disk raw) :
    (∀ start ≤ raw.length, ∀ b, ∃ raw', FileRun f (f.write disk start b) raw' ∧
      raw'.length = max raw.length (start + b.length) ∧
      ∀ i, raw'[i]? = if start ≤ i ∧ i < start + b.length then b[i - start]? else raw[i]?) ∧
    (∀ start size : Nat, ∃ enough, ∀ rounds ≥ enough,
      f.read disk rounds start size = some ((raw.drop start).take size)) ∧
    ∀ start : Nat, ∃ enough, ∀ rounds ≥ enough,
      f.read disk rounds start (-1) = some (raw.drop start) := by
  refine ⟨fun start hs b ↦ ?_, fun start size ↦ ?_, fun start ↦ ?_⟩
  · exact ⟨_, r.write hs b, FlatFile.length_write hs b, FlatFile.getElem?_write hs b⟩
  · refine ⟨raw.length - start + 1, fun rounds hr ↦ ?_⟩
    rw [LogicalFile.read, r.holds.readLoop hr [] size, fileRead, if_neg (by omega)]
    simp
  · refine ⟨raw.length - start + 1, fun rounds hr ↦ ?_⟩
    rw [LogicalFile.read, r.holds.readLoop hr [] (-1), fileRead, if_pos (by omega)]
    simp

/-- Files of two bytes. -/
def sampleFile : LogicalFile := ⟨"meta/sample", 2, 2, by decide⟩

/-- A byte overwritten in the middle of three files, read across their ends. -/
theorem sampleFile_behaves : ∃ disk, ∃ enough, ∀ rounds ≥ enough,
    sampleFile.read disk rounds 1 3 = some [9, 3, 4] := by
  have r : sampleFile.FileRun ∅ [] := .start fun _ ↦ ExtTreeMap.getElem?_empty
  have hw := (r.write (Nat.zero_le _) [1, 2, 3, 4, 5]).write (show 1 ≤ _ by decide) [9]
  exact ⟨_, hw.behaves.2.1 1 3⟩

end LogicalFile
end ElectrumX.Lib
