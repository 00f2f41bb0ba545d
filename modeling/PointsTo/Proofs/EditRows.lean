import PointsTo.Proofs.Edits
import PointsTo.Proofs.StrictTables

/-!
# Rows of edit distances

`editDistance` goes through the first text once and keeps one row, with the distances from what it has gone
through to every prefix of the second text. As rows grow at their end, and `distance` goes through texts from
the front, the row of a text is that of the text reversed (`rowFrom`). An edit of reversed texts is an edit of
the texts, so nothing is lost by that (`isLeast_editDistance`).

A machine does not make a row for every character. It has two, reads one while it writes the other, and then
lets them change places, so that a row that is written still holds what it held two characters before
(`distanceInRows`). What is read of it has always been written before: whatever it holds at first, the machine
answers the same (`distanceInRows_eq`).
-/

namespace PointsTo.Text

variable {t : List Char}

/-! ## The row of a text -/

/-- The distances from `x` to `y`, and to what becomes of `y` when the characters of `ds` are put before it one
after the other. -/
def rowFrom (x : List Char) : (y ds : List Char) → List Nat
  | y, [] => [distance x y]
  | y, d :: ds => distance x y :: rowFrom x (d :: y) ds

theorem rowFrom_eq_cons (x y ds : List Char) :
    rowFrom x y ds = distance x y :: (rowFrom x y ds).tail := by
  cases ds <;> rfl

theorem rowFrom_nil (y ds : List Char) : rowFrom [] y ds = List.range' y.length (ds.length + 1) := by
  induction ds generalizing y with
  | nil =>
    rw [rowFrom, distance_nil_left]
    rfl
  | cons d ds ih =>
    rw [rowFrom, ih, distance_nil_left, List.length_cons, List.length_cons, ← List.range'_succ]

theorem firstRow_eq (t : List Char) : firstRow t = rowFrom [] [] t := by
  rw [rowFrom_nil, firstRow, List.range_eq_range']
  rfl

/-- Each entry is made of the one before it and the two above it. -/
theorem fillRow_rowFrom (c : Char) (x y ds : List Char) :
    fillRow c (distance (c :: x) y) ds (rowFrom x y ds) = (rowFrom (c :: x) y ds).tail := by
  induction ds generalizing y with
  | nil => rfl
  | cons d ds ih =>
    rw [rowFrom, rowFrom, List.tail_cons, rowFrom_eq_cons x (d :: y) ds, fillRow,
      ← rowFrom_eq_cons x (d :: y) ds, ← distance_cons_cons, ih, ← rowFrom_eq_cons]

theorem nextRow_rowFrom (c : Char) (x t : List Char) :
    nextRow t (rowFrom x [] t) c = rowFrom (c :: x) [] t := by
  have hleft : (rowFrom x [] t).headD 0 + 1 = distance (c :: x) [] := by
    rw [rowFrom_eq_cons, List.headD_cons, distance_nil_right, distance_nil_right, List.length_cons]
  rw [nextRow, hleft, fillRow_rowFrom, ← rowFrom_eq_cons]

theorem foldl_nextRow (s x t : List Char) :
    s.foldl (nextRow t) (rowFrom x [] t) = rowFrom (s.reverse ++ x) [] t := by
  induction s generalizing x with
  | nil => rfl
  | cons c s ih =>
    rw [List.foldl_cons, nextRow_rowFrom, ih, List.reverse_cons, List.append_assoc]
    rfl

theorem getLast?_rowFrom (x y ds : List Char) :
    (rowFrom x y ds).getLast? = some (distance x (ds.reverse ++ y)) := by
  induction ds generalizing y with
  | nil => rfl
  | cons d ds ih =>
    rw [rowFrom, rowFrom_eq_cons, List.getLast?_cons_cons, ← rowFrom_eq_cons, ih, List.reverse_cons,
      List.append_assoc]
    rfl

theorem editDistance_eq (s t : List Char) : editDistance s t = distance s.reverse t.reverse := by
  rw [editDistance, firstRow_eq, foldl_nextRow, List.append_nil, getLast?_rowFrom, List.append_nil]
  rfl

theorem isLeast_editDistance (s t : List Char) : IsLeast {n | Edits n s t} (editDistance s t) := by
  have hreverse : {n | Edits n s t} = {n | Edits n s.reverse t.reverse} :=
    Set.ext fun _ => Edits.reverse_iff.symm
  rw [hreverse, editDistance_eq]
  exact isLeast_distance s.reverse t.reverse

/-! ## Two rows that change places -/

/-- Write the entry behind position `j` of the row, by the one at `j` and the two above. -/
def writeEntry (c : Char) (above row : Array Nat) : (entry : Char × Nat) → Except Halt (Array Nat)
  | (d, j) => do
    let up ← lookUp above (j + 1)
    let left ← lookUp row j
    let diagonal ← lookUp above j
    change row (j + 1) fun _ => min (min (up + 1) (left + 1)) (diagonal + if c = d then 0 else 1)

/-- Write a row in the second place. The two rows then change places. -/
def writeRow (t : List Char) : (rows : Array Nat × Array Nat) → (char : Char × Nat) →
    Except Halt (Array Nat × Array Nat)
  | (above, scratch), (c, i) => do
    let start ← change scratch 0 fun _ => i + 1
    let row ← t.zipIdx.foldlM (writeEntry c above) start
    pure (row, above)

/-- The last entry of the last row, where the second place holds anything at first. -/
def distanceInRows (s t : List Char) (scratch : Array Nat) : Except Halt Nat := do
  let (row, _) ← s.zipIdx.foldlM (writeRow t) ((firstRow t).toArray, scratch)
  lookUp row t.length

theorem length_rowFrom (x y ds : List Char) : (rowFrom x y ds).length = ds.length + 1 := by
  induction ds generalizing y with
  | nil => rfl
  | cons d ds ih => rw [rowFrom, List.length_cons, ih, List.length_cons]

theorem writeEntry_eq (c d : Char) {passed written : List Nat} (hlength : passed.length = written.length)
    (diagonal up left old : Nat) (above stale : List Nat) :
    writeEntry c (passed ++ diagonal :: up :: above).toArray (written ++ left :: old :: stale).toArray
      (d, written.length) =
    .ok (written ++ left :: min (min (up + 1) (left + 1)) (diagonal + if c = d then 0 else 1) ::
      stale).toArray := by
  have hup : lookUp (passed ++ diagonal :: up :: above).toArray (written.length + 1) = .ok up := by
    have h := lookUp_append (passed ++ [diagonal]) above up
    rwa [← List.append_cons, List.length_append, List.length_singleton, hlength] at h
  have hleft := lookUp_append written (old :: stale) left
  have hdiagonal := lookUp_append passed (up :: above) diagonal
  rw [hlength] at hdiagonal
  have hwrite := change_append (fun _ => min (min (up + 1) (left + 1)) (diagonal + if c = d then 0 else 1))
    (written ++ [left]) stale old
  rw [← List.append_cons, ← List.append_cons, List.length_append, List.length_singleton] at hwrite
  simp only [writeEntry, hup, hleft, hdiagonal, bind, Except.bind]
  exact hwrite

/-- What is left of a row is written from its entry at `y` on. Both rows are as long, and what the second one
still holds behind that entry plays no role. -/
theorem foldlM_writeEntry (c : Char) (x : List Char) {y ds : List Char} {passed written stale : List Nat}
    (hlength : passed.length = written.length) (hstale : stale.length = ds.length) :
    (ds.zipIdx written.length).foldlM (writeEntry c (passed ++ rowFrom x y ds).toArray)
      (written ++ distance (c :: x) y :: stale).toArray =
    .ok (written ++ rowFrom (c :: x) y ds).toArray := by
  induction ds generalizing y passed written stale with
  | nil =>
    rw [List.length_eq_zero_iff.1 hstale]
    rfl
  | cons d ds ih =>
    obtain ⟨old, stale, rfl⟩ := List.exists_cons_of_length_eq_add_one hstale
    have hentry := writeEntry_eq c d hlength (distance x y) (distance x (d :: y)) (distance (c :: x) y) old
      (rowFrom x (d :: y) ds).tail stale
    rw [← distance_cons_cons, ← rowFrom_eq_cons] at hentry
    have hrest := @ih (d :: y) (passed ++ [distance x y]) (written ++ [distance (c :: x) y]) stale
      (by simpa using hlength) (by simpa using hstale)
    rw [← List.append_cons, ← List.append_cons, ← List.append_cons, List.length_append,
      List.length_singleton] at hrest
    rw [List.zipIdx_cons, List.foldlM_cons, rowFrom, hentry, rowFrom]
    exact hrest

theorem writeRow_eq (c : Char) (x : List Char) {scratch : Array Nat} (hsize : scratch.size = t.length + 1) :
    writeRow t ((rowFrom x [] t).toArray, scratch) (c, x.length) =
      .ok ((rowFrom (c :: x) [] t).toArray, (rowFrom x [] t).toArray) := by
  obtain ⟨scratch⟩ := scratch
  obtain ⟨old, stale, rfl⟩ := List.exists_cons_of_length_eq_add_one hsize
  have hstart := change_append (fun _ => x.length + 1) [] stale old
  have hrow := @foldlM_writeEntry c x [] t [] [] stale rfl (by simpa using hsize)
  rw [distance_nil_right, List.length_cons] at hrow
  simp only [List.nil_append, List.length_nil] at hstart hrow
  simp only [writeRow, hstart, hrow, bind, Except.bind]
  rfl

/-- Whatever is left of the first text, the rows are those of what the machine has gone through. -/
theorem foldlM_writeRow (s x : List Char) {scratch : Array Nat} (hsize : scratch.size = t.length + 1) :
    ∃ scratch', (s.zipIdx x.length).foldlM (writeRow t) ((rowFrom x [] t).toArray, scratch) =
      .ok ((rowFrom (s.reverse ++ x) [] t).toArray, scratch') := by
  induction s generalizing x scratch with
  | nil => exact ⟨scratch, rfl⟩
  | cons c s ih =>
    have hnext : (rowFrom x [] t).toArray.size = t.length + 1 := length_rowFrom x [] t
    obtain ⟨scratch', hrest⟩ := ih (c :: x) hnext
    refine ⟨scratch', ?_⟩
    rw [List.zipIdx_cons, List.foldlM_cons, writeRow_eq c x hsize, List.reverse_cons, List.append_assoc]
    exact hrest

/-- The machine asks for no entry in vain, and answers the edit distance whatever its second row holds at
first. -/
theorem distanceInRows_eq (s t : List Char) {scratch : Array Nat} (hsize : scratch.size = t.length + 1) :
    distanceInRows s t scratch = .ok (editDistance s t) := by
  obtain ⟨scratch', hrows⟩ := foldlM_writeRow s [] hsize
  have hlast : (rowFrom s.reverse [] t).toArray[t.length]? = some (editDistance s t) := by
    have h := getLast?_rowFrom s.reverse [] t
    rw [List.getLast?_eq_getElem?, length_rowFrom, Nat.add_sub_cancel, List.append_nil,
      ← editDistance_eq] at h
    rwa [List.getElem?_toArray]
  rw [List.append_nil, List.length_nil] at hrows
  rw [distanceInRows, firstRow_eq, hrows]
  exact lookUp_eq hlast

end PointsTo.Text
