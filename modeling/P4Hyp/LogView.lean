import P4Hyp.Render

/-!
# Long lines of the transcript

A line that does not fit the pane is cut into pieces, a row each.  How wide they are and how many
columns the time stamps leave are worked out in two places.
-/

namespace P4Hyp

/-! ## Pieces -/

section Pieces

variable {α : Type*} {n : Nat}

theorem pieces_cons (n : Nat) (l : List α) : ∃ p ps, pieces n l = p :: ps := by
  have hpos : pieces n l ≠ [] := by
    apply List.ne_nil_of_length_pos
    rw [pieces, List.length_map, List.length_range]
    omega
  exact List.exists_cons_of_ne_nil hpos

theorem pieces_length_le {l p : List α} (hp : p ∈ pieces n l) : p.length ≤ n := by
  obtain ⟨k, -, rfl⟩ := List.mem_map.mp hp
  exact List.length_take_le _ _

/-- Pieces that are filled up to their width are the list, filled up. -/
theorem pieces_filled (hn : 0 < n) (x : α) (l : List α) :
    ∃ k, (pieces n l).flatMap (fun p => p ++ List.replicate (n - p.length) x) =
      l ++ List.replicate k x := by
  induction hlen : l.length using Nat.strong_induction_on generalizing l with
  | _ m ih =>
      by_cases hlong : n < l.length
      · obtain ⟨k, hk⟩ := ih (l.drop n).length (by rw [List.length_drop]; omega) _ rfl
        have hfull : (l.take n).length = n := by
          rw [List.length_take]
          omega
        refine ⟨k, ?_⟩
        rw [pieces_long hn hlong, List.flatMap_cons, hk, hfull, Nat.sub_self, List.replicate_zero,
          List.append_nil, ← List.append_assoc, List.take_append_drop]
      · refine ⟨n - l.length, ?_⟩
        rw [pieces_short (Nat.le_of_not_lt hlong), List.flatMap_singleton]

/-- A part of a list that is inside a window on it is there behind what the window has of the part in
front. -/
theorem window_part {β : Type*} {A B C : List α} {lo hi : Nat} (f : α → β) (more : List β)
    (hlo : lo ≤ A.length) (hhi : A.length + B.length ≤ hi) :
    (((((A ++ (B ++ C)).take hi).drop lo).map f ++ more).drop (A.length - lo)).take B.length =
      B.map f := by
  have htake : (A ++ (B ++ C)).take hi = A ++ (B ++ C.take (hi - A.length - B.length)) := by
    rw [List.take_append, List.take_of_length_le (by omega), List.take_append,
      List.take_of_length_le (by omega)]
  have hlen : (List.map f (A.drop lo)).length = A.length - lo := by
    rw [List.length_map, List.length_drop]
  rw [htake, List.drop_append_of_le_length hlo, List.map_append, List.append_assoc, ← hlen,
    List.drop_left, List.map_append, List.append_assoc]
  exact List.take_left' (List.length_map f)

end Pieces

/-! ## Rows -/

namespace Line

variable {ln : Line}

theorem rowChars_add (text : Str) (sgr : Sgr) :
    rowChars (ln.add text sgr).parts = rowChars ln.parts ++ text.take (ln.width - ln.n) := by
  unfold add
  split
  · rename_i h
    rcases h with h | rfl
    · rw [Nat.sub_eq_zero_of_le h, List.take_zero, List.append_nil]
    · rw [List.take_nil, List.append_nil]
  · rw [rowChars_append]
    exact congrArg _ (List.append_nil _)

theorem rowChars_fill (ln : Line) :
    rowChars ln.fill.build = rowChars ln.parts ++ List.replicate (ln.width - ln.n) ' ' := by
  unfold fill pad build
  dsimp only
  rw [Nat.min_self]
  split
  · rw [rowChars_add, List.take_of_length_le (List.length_replicate.le)]
  · rw [Nat.sub_eq_zero_of_le (by omega), List.replicate_zero, List.append_nil]

end Line

namespace Frame

variable (f : Frame)

/-- The columns of the time stamps. -/
def stampW : Nat := if f.timestamps then 10 else 0

/-- The columns that they leave. -/
def textCols : Nat := f.paneCols - f.stampW

/-- The pieces of lines, a row each. -/
def pieceRows (pairs : List (Str × Str)) : List (Str × Str) :=
  if f.wrap then wrapPairs pairs f.textCols else pairs

/-- All rows of the line behind those of `before` are in the window. -/
def InWindow (height : Nat) (before : List (Str × Str)) (line : Str × Str) : Prop :=
  (f.pieceRows f.logPairs).length - f.scroll - height ≤ (f.pieceRows before).length ∧
    (f.pieceRows before).length + (f.pieceRows [line]).length ≤
      (f.pieceRows f.logPairs).length - f.scroll

instance (height : Nat) (before : List (Str × Str)) (line : Str × Str) :
    Decidable (f.InWindow height before line) := inferInstanceAs (Decidable (_ ∧ _))

/-- The rows of `log_rows` for that line. -/
def lineRows (height : Nat) (before : List (Str × Str)) (line : Str × Str) : List (List Span) :=
  ((f.logRows height f.paneCols).drop ((f.pieceRows before).length -
    ((f.pieceRows f.logPairs).length - f.scroll - height))).take (f.pieceRows [line]).length

/-- The rows show all of the line. -/
structure ShowsLine (line : Str × Str) (rows : List (List Span)) : Prop where
  /-- Behind the stamps they are the line, up to padding. -/
  text : ∃ k, rows.flatMap (fun row => (rowChars row).drop f.stampW) =
    line.1 ++ List.replicate k ' '
  fits : ∀ p ∈ f.pieceRows [line], p.1.length ≤ f.textCols
  /-- The first one has the stamp, and the others have blanks. -/
  stamped : f.timestamps = true → rows.map (fun row => (rowChars row).take f.stampW) =
    stampText line.2 :: List.replicate (rows.length - 1) (stampText [])

/-- `strftime` of hours, minutes and seconds, or none. -/
def IsStamp (stamp : Str) : Prop := stamp = [] ∨ stamp.length = 8

section Lines

variable {f} {height : Nat} {before after : List (Str × Str)} {line : Str × Str} {text stamp : Str}

theorem pieceRows_append (xs ys : List (Str × Str)) :
    f.pieceRows (xs ++ ys) = f.pieceRows xs ++ f.pieceRows ys := by
  unfold pieceRows
  split
  · exact List.flatMap_append
  · rfl

/-- In the window the line has a row for each of its pieces. -/
theorem lineRows_eq (hlog : f.logPairs = before ++ line :: after)
    (hwin : f.InWindow height before line) :
    f.lineRows height before line =
      (f.pieceRows [line]).map fun p => f.logRow f.paneCols p.1 p.2 := by
  have hall : f.pieceRows f.logPairs =
      f.pieceRows before ++ (f.pieceRows [line] ++ f.pieceRows after) := by
    rw [hlog, ← List.singleton_append, pieceRows_append, pieceRows_append]
  obtain ⟨hlo, hhi⟩ := hwin
  have hpart := window_part (C := f.pieceRows after) (fun p => f.logRow f.paneCols p.1 p.2)
    (List.replicate (height - ((((f.pieceRows f.logPairs).take
      ((f.pieceRows f.logPairs).length - f.scroll)).drop
        ((f.pieceRows f.logPairs).length - f.scroll - height)).map
          fun p => f.logRow f.paneCols p.1 p.2).length) (blanks f.paneCols)) hlo hhi
  rw [← hall] at hpart
  exact hpart

theorem stampText_length (hstamp : IsStamp stamp) : (stampText stamp).length = 10 := by
  have hle : stamp.length ≤ 9 := by
    rcases hstamp with rfl | h
    · exact Nat.zero_le 9
    · omega
  rw [stampText, List.length_append, List.length_append, List.length_replicate,
    List.length_singleton]
  omega

/-- A row has the stamp, as much of the piece as there is room for, and blanks. -/
theorem logRow_chars (hfit : f.stampW ≤ f.paneCols) (hstamp : IsStamp stamp) (text : Str) :
    rowChars (f.logRow f.paneCols text stamp) = (if f.timestamps then stampText stamp else []) ++
      (text.take f.textCols ++ List.replicate (f.textCols - text.length) ' ') := by
  have hrow (ln : Line) : rowChars (ln.add text .none).fill.build = rowChars ln.parts ++
      (text.take (ln.width - ln.n) ++ List.replicate (ln.width - ln.n - text.length) ' ') := by
    have hblanks : (ln.add text .none).width - (ln.add text .none).n =
        ln.width - ln.n - text.length := by
      rw [Line.add_width, Line.add_n]
      omega
    rw [Line.rowChars_fill, Line.rowChars_add, hblanks, List.append_assoc]
  unfold textCols
  unfold stampW at hfit ⊢
  unfold logRow
  dsimp only
  cases ht : f.timestamps with
  | true =>
      rw [ht, if_pos rfl] at hfit
      have hlen := stampText_length hstamp
      have hn : ((Line.new f.paneCols).add (stampText stamp) sDim).n = 10 := by
        rw [Line.add_n, hlen]
        show 0 + min (f.paneCols - 0) 10 = 10
        omega
      have hchars : rowChars ((Line.new f.paneCols).add (stampText stamp) sDim).parts =
          stampText stamp := by
        rw [Line.rowChars_add]
        exact List.take_of_length_le (show (stampText stamp).length ≤ f.paneCols - 0 by omega)
      rw [if_pos rfl, if_pos rfl, if_pos rfl, hrow, hchars, hn, Line.add_width]
      rfl
  | false =>
      rw [if_neg Bool.false_ne_true, if_neg Bool.false_ne_true, if_neg Bool.false_ne_true, hrow]
      rfl

/-- The pieces of one line. -/
theorem pieceRows_line (hwrap : f.wrap = true) (text stamp : Str) :
    ∃ p ps, pieces (max 8 f.textCols) text = p :: ps ∧
      f.pieceRows [(text, stamp)] = (p, stamp) :: ps.map fun q => (q, []) := by
  obtain ⟨p, ps, hp⟩ := pieces_cons (max 8 f.textCols) text
  refine ⟨p, ps, hp, ?_⟩
  unfold pieceRows wrapPairs
  rw [if_pos hwrap, List.flatMap_singleton]
  dsimp only
  split
  · rename_i hshort
    rw [pieces_short hshort] at hp
    obtain ⟨rfl, rfl⟩ := List.cons.inj hp
    rfl
  · rw [hp, List.mapIdx_cons]
    refine congrArg _ ?_
    rw [List.mapIdx_eq_iff]
    intro i
    simp

theorem logRow_parts (hfit : f.stampW ≤ f.paneCols) (hstamp : IsStamp stamp) (text : Str) :
    (rowChars (f.logRow f.paneCols text stamp)).drop f.stampW =
        text.take f.textCols ++ List.replicate (f.textCols - text.length) ' ' ∧
      (rowChars (f.logRow f.paneCols text stamp)).take f.stampW =
        if f.timestamps then stampText stamp else [] := by
  have hlen : (if f.timestamps then stampText stamp else []).length = f.stampW := by
    unfold stampW
    split
    · exact stampText_length hstamp
    · rfl
  rw [logRow_chars hfit hstamp]
  exact ⟨List.drop_left' hlen, List.take_left' hlen⟩

/-- The first piece of a long line is as wide as the pieces are. -/
theorem pieces_head {w : Nat} {p : Str} {ps : List Str} (hw : 0 < w) (hp : pieces w text = p :: ps)
    (hlong : w ≤ text.length) : p.length = w := by
  by_cases hlt : w < text.length
  · rw [pieces_long hw hlt] at hp
    rw [← (List.cons.inj hp).1, List.length_take]
    omega
  · rw [pieces_short (Nat.le_of_not_lt hlt)] at hp
    rw [← (List.cons.inj hp).1]
    omega

/-- Where they fit beside the stamp, the pieces show the line. -/
theorem showsLine_of_fits (hfit : f.stampW ≤ f.paneCols) (hwrap : f.wrap = true)
    (hstamp : IsStamp stamp) (hpieces : ∀ p ∈ pieces (max 8 f.textCols) text, p.length ≤ f.textCols)
    (hfilled : ∃ k, (pieces (max 8 f.textCols) text).flatMap
      (fun p => p ++ List.replicate (f.textCols - p.length) ' ') = text ++ List.replicate k ' ') :
    f.ShowsLine (text, stamp)
      ((f.pieceRows [(text, stamp)]).map fun p => f.logRow f.paneCols p.1 p.2) := by
  obtain ⟨p, ps, hp, hrows⟩ := pieceRows_line hwrap text stamp
  obtain ⟨k, hk⟩ := hfilled
  have hfits : ∀ q ∈ f.pieceRows [(text, stamp)],
      q.1 ∈ pieces (max 8 f.textCols) text ∧ IsStamp q.2 := by
    intro q hq
    rw [hrows] at hq
    rw [hp]
    rcases List.mem_cons.mp hq with rfl | hq
    · exact ⟨List.mem_cons_self, hstamp⟩
    · obtain ⟨r, hr, rfl⟩ := List.mem_map.mp hq
      exact ⟨List.mem_cons_of_mem p hr, .inl rfl⟩
  refine ⟨⟨k, ?_⟩, fun q hq => hpieces _ (hfits q hq).1, fun ht => ?_⟩
  · have hfst : (f.pieceRows [(text, stamp)]).map Prod.fst = pieces (max 8 f.textCols) text := by
      rw [hrows, hp, List.map_cons, List.map_map]
      exact congrArg _ (List.map_id ps)
    rw [← hk, ← hfst, List.flatMap_map, List.flatMap_map]
    refine List.flatMap_congr fun q hq => ?_
    rw [(logRow_parts hfit (hfits q hq).2 q.1).1, List.take_of_length_le (hpieces _ (hfits q hq).1)]
  · rw [hrows, List.map_map, List.map_cons, List.map_map, List.length_map, List.length_cons,
      List.length_map, Nat.add_sub_cancel]
    have hcarry (t u : Str) (hu : IsStamp u) :
        (rowChars (f.logRow f.paneCols t u)).take f.stampW = stampText u := by
      rw [(logRow_parts hfit hu t).2, if_pos ht]
    refine List.cons_eq_cons.mpr ⟨hcarry p stamp hstamp, ?_⟩
    rw [List.eq_replicate_iff]
    refine ⟨List.length_map _, fun row hrow => ?_⟩
    obtain ⟨q, -, rfl⟩ := List.mem_map.mp hrow
    exact hcarry q [] (.inl rfl)

/-- All of the line is shown exactly if there are no stamps, or the terminal is not the narrowest, or the
line is short. -/
theorem showsLine_iff (hcols : minCols ≤ f.cols) (hwrap : f.wrap = true) (hstamp : IsStamp stamp)
    (hlog : f.logPairs = before ++ (text, stamp) :: after)
    (hwin : f.InWindow height before (text, stamp)) :
    f.ShowsLine (text, stamp) (f.lineRows height before (text, stamp)) ↔
      f.timestamps = false ∨ minCols < f.cols ∨ text.length < 8 := by
  have hpane := paneCols_eq hcols
  unfold minCols at hcols ⊢
  rw [lineRows_eq hlog hwin]
  constructor
  · rintro ⟨-, hfits, -⟩
    by_contra hno
    rw [not_or, not_or, Bool.not_eq_false] at hno
    obtain ⟨ht, hnarrow, hlong⟩ := hno
    have htext : f.textCols = 7 := by
      unfold textCols stampW
      rw [ht, if_pos rfl]
      omega
    obtain ⟨p, ps, hp, hrows⟩ := pieceRows_line hwrap text stamp
    have hle := hfits (p, stamp) (by rw [hrows]; exact List.mem_cons_self)
    rw [htext] at hp hle
    have hfull := pieces_head (by decide) hp (show 8 ≤ text.length by omega)
    rw [show p.length = 8 from hfull] at hle
    omega
  · intro hcond
    have hfit : f.stampW ≤ f.paneCols := by
      unfold stampW
      split <;> omega
    by_cases hwide : 8 ≤ f.textCols
    · have hw : max 8 f.textCols = f.textCols := Nat.max_eq_right hwide
      refine showsLine_of_fits hfit hwrap hstamp ?_ ?_
      · rw [hw]
        exact fun p hp => pieces_length_le hp
      · rw [hw]
        exact pieces_filled (by omega) ' ' text
    · have hshort : text.length ≤ 7 ∧ 7 ≤ f.textCols := by
        unfold textCols stampW at hwide ⊢
        cases ht : f.timestamps with
        | true =>
            rw [ht, if_pos rfl] at hwide
            rw [if_pos rfl]
            have := hcond.resolve_left (by rw [ht]; decide)
            omega
        | false =>
            rw [ht, if_neg Bool.false_ne_true] at hwide
            omega
      have hone : pieces (max 8 f.textCols) text = [text] := pieces_short (by omega)
      refine showsLine_of_fits hfit hwrap hstamp ?_ ?_
      · rw [hone]
        intro p hp
        rw [List.mem_singleton.mp hp]
        omega
      · rw [hone]
        exact ⟨_, List.flatMap_singleton _ _⟩

end Lines

/-- Ten letters on a terminal of `cols` columns, with time stamps. -/
def stampedLog (cols : Nat) : Frame :=
  { smallest with
    cols := cols
    screen := { Screen.init 5 17 10 with scrollback := ["abcdefghij".toList], linesOut := 1 }
    stamps := fun _ => some "12:00:00".toList }

theorem showsLine_iff_wider : (stampedLog 41).ShowsLine ("abcdefghij".toList, "12:00:00".toList)
    ((stampedLog 41).lineRows 5 [] ("abcdefghij".toList, "12:00:00".toList)) :=
  have hlog : (stampedLog 41).logPairs = [] ++ ("abcdefghij".toList, "12:00:00".toList) :: [] := by
    decide +kernel
  (showsLine_iff (by decide) rfl (.inr rfl) hlog (by decide +kernel)).mpr (.inr (.inl (by decide)))

/-- On the narrowest terminal the eighth letter is not shown. -/
theorem narrow_cuts : (stampedLog 40).cols = minCols ∧
    (stampedLog 40).logPairs = [("abcdefghij".toList, "12:00:00".toList)] ∧
    (stampedLog 40).InWindow 5 [] ("abcdefghij".toList, "12:00:00".toList) ∧
    ((stampedLog 40).lineRows 5 [] ("abcdefghij".toList, "12:00:00".toList)).map
      (fun row => (rowChars row).drop 10) = ["abcdefg".toList, "ij     ".toList] ∧
    ¬ (stampedLog 40).ShowsLine ("abcdefghij".toList, "12:00:00".toList)
      ((stampedLog 40).lineRows 5 [] ("abcdefghij".toList, "12:00:00".toList)) := by
  refine ⟨rfl, by decide +kernel, by decide +kernel, by decide +kernel, fun h => ?_⟩
  have hfits := h.fits ("abcdefgh".toList, "12:00:00".toList) (by decide +kernel)
  revert hfits
  decide +kernel

end Frame

end P4Hyp
