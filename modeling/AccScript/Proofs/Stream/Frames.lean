import AccScript.Stream.Writer
import Mathlib.Data.List.Basic

/-!
# Reading a stream of frames

A hash sign marks the delimiters inside of a frame, and nothing marks a hash sign.  A reader can
still tell the two apart: what follows a hash sign of the text is never a bare delimiter, unless the
text ends with it.  The text of a piece ends with a brace.

`scan` reads a stream by the rules of framing alone.  The main result, `scan_stream`, says that it
finds the texts that were written, in their order, and no bare star before the last two characters.
-/

namespace AccScript

namespace Stream

/-- What a reader makes of the characters of a stream. -/
inductive Symbol where
  /-- The start of a frame. -/
  | opening
  /-- The end of a frame. -/
  | closing
  /-- A character of a text, with or without a mark. -/
  | inside (c : Char) (isMarked : Bool)
  /-- A character between frames. -/
  | outside (c : Char)
deriving DecidableEq, Repr

/-- Reads a stream; the flag tells whether the reader is inside of a frame. -/
def scan : Bool → List Char → List Symbol
  | _, [] => []
  | false, c :: rest =>
      if c = '$' then .opening :: scan true rest else .outside c :: scan false rest
  | true, '#' :: c :: rest =>
      if isDelimiter c then .inside c true :: scan true rest
      else .inside '#' false :: scan true (c :: rest)
  | true, c :: rest =>
      if c = '$' then .closing :: scan false rest else .inside c false :: scan true rest

namespace Symbol

/-- The texts of the frames that are complete; `text` is what was read of the current one. -/
def texts (text : List Char) : List Symbol → List (List Char)
  | [] => []
  | .opening :: rest => texts [] rest
  | .closing :: rest => text :: texts [] rest
  | .inside c _ :: rest => texts (text ++ [c]) rest
  | .outside _ :: rest => texts text rest

/-- A star that could be taken for the end of the stream. -/
def isBareStar : Symbol → Bool
  | .inside c isMarked => c = '*' && !isMarked
  | .outside c => c = '*'
  | _ => false

def ofText (text : List Char) : List Symbol :=
  .opening :: text.map (fun c => .inside c (isDelimiter c)) ++ [.closing]

theorem texts_map_inside (read text : List Char) (rest : List Symbol) :
    texts read (text.map (fun c => .inside c (isDelimiter c)) ++ rest) =
      texts (read ++ text) rest := by
  induction text generalizing read with
  | nil => simp
  | cons c text ih =>
    rw [List.map_cons, List.cons_append, texts, ih, List.append_assoc, List.singleton_append]

theorem texts_ofText (read text : List Char) (rest : List Symbol) :
    texts read (ofText text ++ rest) = text :: texts [] rest := by
  rw [ofText, List.append_assoc, List.cons_append, texts, texts_map_inside]
  simp [texts]

theorem texts_flatMap_ofText (written : List (List Char)) (rest : List Symbol) :
    texts [] (written.flatMap ofText ++ rest) = written ++ texts [] rest := by
  induction written with
  | nil => rfl
  | cons text written ih =>
    rw [List.flatMap_cons, List.append_assoc, texts_ofText, ih, List.cons_append]

theorem isBareStar_of_mem_ofText {text : List Char} {s : Symbol} (mem : s ∈ ofText text) :
    s.isBareStar = false := by
  simp only [ofText, List.cons_append, List.mem_cons, List.mem_append, List.mem_map,
    List.not_mem_nil, or_false] at mem
  rcases mem with rfl | ⟨c, -, rfl⟩ | rfl
  · rfl
  · by_cases star : c = '*' <;> simp [isBareStar, isDelimiter, star]
  · rfl

end Symbol

/-! ## Frames -/

theorem head?_escape {text : List Char} {c : Char} (first : (escape text).head? = some c) :
    isDelimiter c = false := by
  cases text with
  | nil => cases first
  | cons d text =>
    rw [escape] at first
    split at first
    · cases first
      rfl
    · rename_i plain
      cases first
      exact Bool.eq_false_iff.mpr plain

theorem scan_hash {rest : List Char} {c : Char} (first : rest.head? = some c)
    (plain : isDelimiter c = false) : scan true ('#' :: rest) = .inside '#' false :: scan true rest := by
  cases rest with
  | nil => cases first
  | cons d rest =>
    cases first
    rw [scan, if_neg (by simp [plain])]

theorem scan_inside {c : Char} (hash : c ≠ '#') (plain : isDelimiter c = false) (rest : List Char) :
    scan true (c :: rest) = .inside c false :: scan true rest := by
  have dollar : c ≠ '$' := by
    rintro rfl
    cases plain
  rw [scan, if_neg dollar]
  rintro d tail rfl
  exact absurd rfl hash

/-- A reader inside of a frame reads the text to its end, unless it ends with a hash sign. -/
theorem scan_escape (text rest : List Char) (last : text.getLast? ≠ some '#') :
    scan true (escape text ++ '$' :: rest) =
      text.map (fun c => .inside c (isDelimiter c)) ++ .closing :: scan false rest := by
  induction text with
  | nil => rfl
  | cons c text ih =>
    have last' : text.getLast? ≠ some '#' := by
      intro same
      cases text with
      | nil => cases same
      | cons d text => exact last (by rwa [List.getLast?_cons_cons])
    rw [escape, List.map_cons, List.cons_append, ← ih last']
    by_cases delimiter : isDelimiter c = true
    · rw [if_pos delimiter, List.cons_append, List.cons_append, scan, if_pos delimiter, delimiter]
    · have plain : isDelimiter c = false := Bool.eq_false_iff.mpr delimiter
      rw [if_neg delimiter, List.cons_append, plain]
      by_cases hash : c = '#'
      · subst hash
        -- The text goes on, so the hash sign is not in front of the end of the frame.
        cases first : (escape text).head? with
        | none =>
          have empty : text = [] := by
            cases text with
            | nil => rfl
            | cons d text =>
              rw [escape] at first
              split at first <;> cases first
          exact absurd (by simp [empty]) last
        | some d =>
          refine scan_hash (c := d) ?_ (head?_escape first)
          simp [List.head?_append, first]
      · exact scan_inside hash plain _

theorem scan_frame (text rest : List Char) (last : text.getLast? ≠ some '#') :
    scan false (frame text ++ rest) = Symbol.ofText text ++ scan false rest := by
  have inner := scan_escape text rest last
  simp only [frame, List.cons_append, List.append_assoc, List.nil_append] at inner ⊢
  rw [scan, if_pos rfl, inner]
  simp [Symbol.ofText]

theorem scan_frames (written : List (List Char)) (rest : List Char)
    (last : ∀ text ∈ written, text.getLast? ≠ some '#') :
    scan false (written.flatMap frame ++ rest) =
      written.flatMap Symbol.ofText ++ scan false rest := by
  induction written with
  | nil => rfl
  | cons text written ih =>
    rw [List.flatMap_cons, List.flatMap_cons, List.append_assoc, List.append_assoc,
      scan_frame _ _ (last text (.head _)),
      ih fun text mem => last text (.tail _ mem)]

end Stream

/-! ## Pieces -/

theorem Piece.getLast?_text (piece : Piece) : piece.text.getLast? = some '\x7d' := by
  simp [Piece.text, Piece.toJson, Json.render, List.getLast?_cons]

namespace Writer

theorem run_forM_write (pieces : List Piece) (written : List Char) :
    (pieces.forM write).run ⟨written, true⟩ =
      (.ok (), ⟨written ++ (pieces.map Piece.text).flatMap Stream.frame, true⟩) := by
  induction pieces generalizing written with
  | nil => simp [List.forM_nil]; rfl
  | cons piece pieces ih =>
    have rest := ih (written ++ Stream.frame piece.text)
    rw [List.append_assoc] at rest
    exact rest

theorem run_bind {α β : Type} (steps : Writing α) (k : α → Writing β) (w : Writer) :
    (steps >>= k).run w =
      match steps.run w with
      | (.ok a, w) => (k a).run w
      | (.error e, w) => (.error e, w) := by
  show (match steps.run w with | (r, w) => ExceptT.bindCont k r w) = _
  obtain ⟨_ | _, _⟩ := steps.run w <;> rfl

theorem stream_eq {steps : Writing Unit} {result : Except CompileError Unit} {written : List Char}
    (run : steps.run {} = (result, ⟨written, true⟩)) (isFinished : Bool) :
    stream steps isFinished = written ++ Stream.terminator := by
  rw [stream, run_bind, run]
  cases result with
  | error e => rfl
  | ok _ => cases isFinished <;> rfl

end Writer

open AccScript.Stream in
/-- What is written piece by piece can be read again, whether the writer is finished or dropped: the
texts are those of the pieces, and the only bare star is the one at the end. -/
theorem scan_stream (pieces : List Piece) (isFinished : Bool) :
    Writer.stream (pieces.forM Writer.write) isFinished = (Stream.ofPieces pieces).toList ∧
      Symbol.texts [] (scan false (Writer.stream (pieces.forM Writer.write) isFinished)) =
        pieces.map Piece.text ∧
      ∃ frames, Writer.stream (pieces.forM Writer.write) isFinished = frames ++ ['*', '\n'] ∧
        scan false (frames ++ ['*', '\n']) = scan false frames ++ [.outside '*', .outside '\n'] ∧
        ∀ s ∈ scan false frames, s.isBareStar = false := by
  have run := Writer.run_forM_write pieces []
  rw [List.nil_append] at run
  have last : ∀ text ∈ pieces.map Piece.text, text.getLast? ≠ some '#' := by
    intro text mem
    obtain ⟨piece, -, rfl⟩ := List.mem_map.mp mem
    rw [piece.getLast?_text]
    decide
  have whole := scan_frames (pieces.map Piece.text) ['*', '\n'] last
  have front := scan_frames (pieces.map Piece.text) [] last
  have ending : scan false ['*', '\n'] = [.outside '*', .outside '\n'] := by decide
  rw [List.append_nil, scan, List.append_nil] at front
  rw [Writer.stream_eq run, terminator, whole, ending]
  refine ⟨?_, ?_, _, rfl, ?_, ?_⟩
  · rw [Stream.ofPieces, String.toList_ofList]
    rfl
  · rw [Symbol.texts_flatMap_ofText]
    simp [Symbol.texts]
  · rw [whole, front, ending]
  · intro s mem
    rw [front] at mem
    obtain ⟨text, -, inside⟩ := List.mem_flatMap.mp mem
    exact Symbol.isBareStar_of_mem_ofText inside

end AccScript
