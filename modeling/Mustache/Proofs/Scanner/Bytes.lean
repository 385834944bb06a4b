import Mustache.Proofs.Scanner.Tiling
import Mustache.Proofs.Text.Bytes

/-!
# Mustache.Proofs.Scanner.Bytes

The scanner as one byte offset into the source.

A `ByteScanner` keeps the offset that it has come to, and takes all it looks at out of the source by
offsets, byte for byte. Each access may be out of place, and then the step has no answer. It always
has one, and it is that of the scanner (`Scanner.next?_inBytes`): what is found in the bytes of the
source is found between two characters, sigils and the blanks around a tag are one byte each, and a
mark is never empty.
-/

namespace Mustache

open Text

/-! ## The line of a tag, in bytes -/

def isIndentByte (b : UInt8) : Bool := b == 0x20 || b == 0x09

def isTrailingByte (b : UInt8) : Bool := b == 0x20 || b == 0x09 || b == 0x0d

def lineStart? (source : List UInt8) : Nat → Option Nat
  | 0 => some 0
  | offset + 1 => do
    let b ← source[offset]?
    if isIndentByte b then lineStart? source offset else some (offset + 1)

/-- Goes on over blanks, as long as there are bytes. -/
def lineEnd (source : List UInt8) (offset : Nat) : Nat :=
  if h : offset < source.length then
    if isTrailingByte source[offset] then lineEnd source (offset + 1) else offset
  else offset
termination_by source.length - offset

/-- Whether a line begins at an offset. -/
def opensLine? (source : List UInt8) (offset : Nat) : Option Bool :=
  if offset = 0 then some true else (source[offset - 1]?).map (· == 0x0a)

/-- Where the line ends that has an end at the offset, its line feed included. -/
def closesLine (source : List UInt8) (offset : Nat) : Option Nat :=
  match source[offset]? with
  | none => some offset
  | some b => if b == 0x0a then some (offset + 1) else none

/-- The whitespace around the tag between two offsets, when nothing else is on its lines. -/
def standaloneAt? (source : List Char) (start stop : Nat) : Option (Option Standalone) := do
  let lineStart ← lineStart? (bytes source) start
  if ← opensLine? (bytes source) lineStart then
    match closesLine (bytes source) (lineEnd (bytes source) stop) with
    | none => some none
    | some lineStop =>
      let indent ← slice? source lineStart start
      let trailing ← minus? lineStop stop
      some (some ⟨String.ofList indent, trailing⟩)
  else some none

section Line

variable {c : Char} {b : UInt8}

theorem beq_byte (a : Char) (x : UInt8) (ha : String.utf8EncodeChar a = [x])
    (hascii : x &&& 0x80 = 0) (hb : b ∈ String.utf8EncodeChar c) : (b == x) = (c == a) := by
  rw [Bool.eq_iff_iff, beq_iff_eq, beq_iff_eq]
  constructor
  · rintro rfl
    exact eq_of_mem_utf8EncodeChar ha hascii hb
  · rintro rfl
    rw [ha] at hb
    exact List.mem_singleton.1 hb

theorem isIndentByte_eq (hb : b ∈ String.utf8EncodeChar c) : isIndentByte b = isIndent c := by
  rw [isIndentByte, isIndent, beq_byte ' ' 0x20 rfl rfl hb, beq_byte '\t' 0x09 rfl rfl hb]

theorem isTrailingByte_eq (hb : b ∈ String.utf8EncodeChar c) : isTrailingByte b = isTrailing c := by
  rw [isTrailingByte, isTrailing, beq_byte ' ' 0x20 rfl rfl hb, beq_byte '\t' 0x09 rfl rfl hb,
    beq_byte '\r' 0x0d rfl rfl hb]

theorem utf8Size_of_isTrailing (h : isTrailing c = true) : c.utf8Size = 1 := by
  simp only [isTrailing, Bool.or_eq_true, beq_iff_eq] at h
  rcases h with (rfl | rfl) | rfl <;> rfl

theorem utf8Size_of_isIndent (h : isIndent c = true) : c.utf8Size = 1 := by
  simp only [isIndent, Bool.or_eq_true, beq_iff_eq] at h
  rcases h with rfl | rfl <;> rfl

theorem getElem?_bytes_append (s : List Char) (c : Char) (rest : List Char) :
    ∃ b ∈ String.utf8EncodeChar c, (bytes (s ++ c :: rest))[byteLength s]? = some b := by
  obtain ⟨first, more, hencode, -, -⟩ := exists_utf8EncodeChar c
  refine ⟨first, by simp [hencode], ?_⟩
  rw [bytes_append, List.getElem?_append_right (by simp), length_bytes, Nat.sub_self, bytes_cons,
    hencode]
  rfl

theorem getElem?_bytes_last (s : List Char) (c : Char) (rest : List Char) :
    ∃ offset, byteLength (s ++ [c]) = offset + 1 ∧
      ∃ b ∈ String.utf8EncodeChar c, (bytes (s ++ c :: rest))[offset]? = some b := by
  have hpos := c.utf8Size_pos
  have hlast : c.utf8Size - 1 < (String.utf8EncodeChar c).length := by
    rw [String.length_utf8EncodeChar]
    omega
  refine ⟨byteLength s + (c.utf8Size - 1), ?_, (String.utf8EncodeChar c)[c.utf8Size - 1],
    List.getElem_mem hlast, ?_⟩
  · rw [byteLength_append, byteLength, byteLength]
    omega
  · rw [bytes_append, List.getElem?_append_right (by simp), length_bytes, Nat.add_sub_cancel_left,
      bytes_cons, List.getElem?_append_left hlast, List.getElem?_eq_getElem hlast]

theorem lineStart?_eq (before rest : List Char) :
    lineStart? (bytes (before.reverse ++ rest)) (byteLength before.reverse) =
      some (byteLength (before.dropWhile isIndent).reverse) := by
  induction before generalizing rest with
  | nil => rfl
  | cons c before ih =>
    obtain ⟨offset, hoffset, b, hb, hget⟩ := getElem?_bytes_last before.reverse c rest
    rw [List.reverse_cons, List.append_assoc, hoffset, lineStart?, List.singleton_append, hget]
    simp only [Option.bind_eq_bind, Option.bind_some, isIndentByte_eq hb]
    by_cases hc : isIndent c = true
    · have hstep : offset = byteLength before.reverse := by
        rw [byteLength_append, byteLength, byteLength, utf8Size_of_isIndent hc] at hoffset
        omega
      rw [if_pos hc, hstep, ih (c :: rest), List.dropWhile_cons_of_pos hc]
    · rw [if_neg hc, List.dropWhile_cons_of_neg hc, List.reverse_cons, hoffset]

theorem lineEnd_eq (s after : List Char) :
    lineEnd (bytes (s ++ after)) (byteLength s) =
      byteLength s + (after.takeWhile isTrailing).length := by
  induction after generalizing s with
  | nil => rw [lineEnd, dif_neg (by simp)]; rfl
  | cons c after ih =>
    obtain ⟨b, hb, hget⟩ := getElem?_bytes_append s c after
    obtain ⟨hlt, rfl⟩ := List.getElem?_eq_some_iff.1 hget
    rw [lineEnd, dif_pos hlt, isTrailingByte_eq hb]
    by_cases hc : isTrailing c = true
    · have hstep : byteLength s + 1 = byteLength (s ++ [c]) := by
        rw [byteLength_append, byteLength, byteLength, utf8Size_of_isTrailing hc]
      have hnext := ih (s ++ [c])
      rw [List.append_assoc, List.singleton_append] at hnext
      rw [if_pos hc, hstep, hnext, List.takeWhile_cons_of_pos hc, List.length_cons, ← hstep]
      omega
    · rw [if_neg hc, List.takeWhile_cons_of_neg hc]
      rfl

theorem opensLine?_eq (before rest : List Char) :
    opensLine? (bytes (before.reverse ++ rest)) (byteLength before.reverse) =
      some (match before with
        | [] => true
        | c :: _ => c == '\n') := by
  cases before with
  | nil => rfl
  | cons c before =>
    obtain ⟨offset, hoffset, b, hb, hget⟩ := getElem?_bytes_last before.reverse c rest
    rw [List.reverse_cons, List.append_assoc, hoffset, opensLine?, if_neg (Nat.succ_ne_zero _),
      Nat.add_sub_cancel, List.singleton_append, hget]
    exact congrArg some (beq_byte '\n' 0x0a rfl rfl hb)

theorem closesLine_eq (s after : List Char) :
    closesLine (bytes (s ++ after)) (byteLength s) =
      match after with
      | [] => some (byteLength s)
      | c :: _ => if c == '\n' then some (byteLength s + 1) else none := by
  cases after with
  | nil =>
    rw [closesLine, List.getElem?_eq_none (by simp)]
  | cons c after =>
    obtain ⟨b, hb, hget⟩ := getElem?_bytes_append s c after
    rw [closesLine, hget]
    dsimp only
    rw [beq_byte '\n' 0x0a rfl rfl hb]

theorem closesLine_lineEnd (s after : List Char) :
    closesLine (bytes (s ++ after)) (lineEnd (bytes (s ++ after)) (byteLength s)) =
      match after.dropWhile isTrailing with
      | [] => some (byteLength s + (after.takeWhile isTrailing).length)
      | c :: _ =>
        if c == '\n' then some (byteLength s + (after.takeWhile isTrailing).length + 1)
        else none := by
  have hsize : byteLength (after.takeWhile isTrailing) = (after.takeWhile isTrailing).length :=
    byteLength_of_utf8Size fun c hc => utf8Size_of_isTrailing (List.mem_takeWhile_imp hc)
  have hcloses := closesLine_eq (s ++ after.takeWhile isTrailing) (after.dropWhile isTrailing)
  rw [List.append_assoc, List.takeWhile_append_dropWhile, byteLength_append, hsize] at hcloses
  rw [lineEnd_eq, hcloses]

/-- Looking for the blanks around a tag stays inside of the source, and between characters. -/
theorem standaloneAt?_eq (before tag rest : List Char) :
    standaloneAt? (before.reverse ++ (tag ++ rest)) (byteLength before.reverse)
      (byteLength before.reverse + byteLength tag) = some (standaloneAt before rest) := by
  have hbefore : (before.dropWhile isIndent).reverse ++ (before.takeWhile isIndent).reverse =
      before.reverse := by
    rw [← List.reverse_append, List.takeWhile_append_dropWhile]
  have hopens := opensLine?_eq (before.dropWhile isIndent)
    ((before.takeWhile isIndent).reverse ++ (tag ++ rest))
  rw [← List.append_assoc, hbefore] at hopens
  have hcloses := closesLine_lineEnd (before.reverse ++ tag) rest
  rw [List.append_assoc, byteLength_append] at hcloses
  have hindent := slice?_append (before.dropWhile isIndent).reverse
    (before.takeWhile isIndent).reverse (tag ++ rest)
  rw [← List.append_assoc, ← byteLength_append, hbefore] at hindent
  rw [standaloneAt?, lineStart?_eq]
  simp only [Option.bind_eq_bind, Option.bind_some, hopens, hcloses, hindent]
  rw [standaloneAt]
  have hminus (n : Nat) : minus? (byteLength before.reverse + byteLength tag + n)
      (byteLength before.reverse + byteLength tag) = some n := by
    rw [minus?, if_pos (Nat.le_add_right ..), Nat.add_sub_cancel_left]
  have hminus' (n : Nat) : minus? (byteLength before.reverse + byteLength tag + n + 1)
      (byteLength before.reverse + byteLength tag) = some (n + 1) := hminus (n + 1)
  cases before.dropWhile isIndent with
  | nil =>
    cases rest.dropWhile isTrailing with
    | nil => simp [hminus]
    | cons c after =>
      by_cases hc : c = '\n'
      · subst hc
        simp [hminus']
      · simp [hc]
  | cons d front =>
    by_cases hd : d = '\n'
    · subst hd
      cases rest.dropWhile isTrailing with
      | nil => simp [hminus]
      | cons c after =>
        by_cases hc : c = '\n'
        · subst hc
          simp [hminus']
        · simp [hc]
    · simp [hd]

end Line

/-! ## The scanner, in bytes -/

structure ByteScanner where
  source : List Char
  initial : UsableDelimiters
  inForce : UsableDelimiters
  /-- The offset of what is scanned next. -/
  cursor : Nat
  point : Point
  finished : Bool

namespace ByteScanner

def ofUsable (source : List Char) (delimiters : UsableDelimiters) : ByteScanner :=
  ⟨source, delimiters, delimiters, 0, .start, false⟩

def finish (s : ByteScanner) : ByteScanner := { s with finished := true }

def advance (s : ByteScanner) (text : List Char) : ByteScanner :=
  { s with cursor := s.cursor + byteLength text, point := s.point.advance text }

def left (s : ByteScanner) : Nat := byteLength s.source - s.cursor

def tag? (s : ByteScanner) : Option (Except Error (SpannedToken × ByteScanner)) := do
  let afterOpening := s.cursor + byteLength s.inForce.val.opening.toList
  let after ← from? s.source afterOpening
  let sigil := Sigil.leading after
  let closer := sigil.closer s.inForce.val.closing.toList
  let start := afterOpening + sigil.text.length
  let content ← from? s.source start
  match ← search? (bytes content) (bytes closer) with
  | none =>
    let opening ← slice? s.source s.cursor start
    some (.error (Scanner.malformed opening (.unclosed (String.ofList closer)) s.point))
  | some length =>
    let stop := start + length + byteLength closer
    let tag ← slice? s.source s.cursor stop
    let body ← slice? s.source start (start + length)
    match readTag s.inForce sigil (Text.trim body) with
    | .error fault => some (.error (Scanner.malformed tag fault s.point))
    | .ok (token, inForce) =>
      let standalone ← standaloneAt? s.source s.cursor stop
      some (.ok (⟨token, Span.covering s.point tag, standalone⟩,
        { s with cursor := stop, point := s.point.advance tag, inForce := inForce }))

def next? (s : ByteScanner) : Option (Option (Except Error Scanned) × ByteScanner) :=
  if s.finished then some (none, s)
  else do
    let rest ← from? s.source s.cursor
    match ← search? (bytes rest) (bytes s.inForce.val.opening.toList) with
    | none =>
      if rest.isEmpty then some (none, s.finish)
      else some (some (.ok ⟨rest, Span.covering s.point rest, none⟩), (s.advance rest).finish)
    | some found =>
      let literal ← slice? rest 0 found
      let s' := s.advance literal
      match ← s'.tag? with
      | .error error => some (some (.error error), s'.finish)
      | .ok (tag, s'') => some (some (.ok ⟨literal, Span.covering s.point literal, some tag⟩), s'')

/-- What one call of `next?` after the other gives, the first one being number 0. -/
def call? : ByteScanner → Nat → Option (Option (Except Error Scanned))
  | s, 0 => s.next?.map (·.1)
  | s, n + 1 => do
    let (_, s') ← s.next?
    s'.call? n

end ByteScanner

namespace Scanner

/-- A scanner with an offset in the place of the two texts. -/
def inBytes (s : Scanner) : ByteScanner :=
  ⟨s.source, s.initial, s.inForce, byteLength s.before.reverse, s.point, s.finished⟩

/-- What has been scanned and what has not are the source. -/
def Splits (s : Scanner) : Prop := s.source = s.before.reverse ++ s.rest

variable {s : Scanner} {text literal after rest : List Char}

theorem splits_ofUsable (source : List Char) (pair : UsableDelimiters) :
    (ofUsable source pair).Splits := rfl

theorem splits_behind {source scanned : List Char} (hsource : source = scanned ++ rest)
    (initial pair : UsableDelimiters) : (behind source initial pair scanned rest).Splits := by
  rw [Splits, behind, List.reverse_reverse]
  exact hsource

theorem Splits.left (h : s.Splits) : s.inBytes.left = byteLength s.rest := by
  have hlength := congrArg byteLength h
  rw [byteLength_append] at hlength
  show byteLength s.source - byteLength s.before.reverse = _
  omega

theorem Splits.advance (h : s.Splits) (hrest : s.rest = text ++ rest) :
    (s.advance text rest).Splits := by
  rw [Splits] at h ⊢
  simp only [Scanner.advance, List.reverse_append, List.reverse_reverse, List.append_assoc]
  rw [← hrest]
  exact h

theorem inBytes_advance (text rest : List Char) :
    (s.advance text rest).inBytes = s.inBytes.advance text := by
  simp only [inBytes, Scanner.advance, ByteScanner.advance, List.reverse_append,
    List.reverse_reverse, byteLength_append]

theorem byteLength_sigil (sigil : Sigil) : byteLength sigil.text = sigil.text.length := by
  cases sigil <;> rfl

/-- The tag at which a scanner stands is found in bytes, and all of it is in place. -/
theorem tag?_inBytes (h : s.Splits) (hrest : s.rest = s.inForce.val.opening.toList ++ after) :
    s.inBytes.tag? = some ((s.tagAt after).map fun (tag, s') => (tag, s'.inBytes)) := by
  let opening := s.inForce.val.opening.toList
  let sigil := Sigil.leading after
  let closer := sigil.closer s.inForce.val.closing.toList
  let content := after.drop sigil.text.length
  have hafter : sigil.text ++ content = after := Sigil.text_append_drop after
  have hsigil : byteLength sigil.text = sigil.text.length := byteLength_sigil sigil
  have hsource : s.source = s.before.reverse ++ (opening ++ (sigil.text ++ content)) := by
    rw [hafter, ← hrest]
    exact h
  have hfrom : from? s.source (byteLength s.before.reverse + byteLength opening) = some after :=
    from?_of_eq (by rw [hsource, hafter, List.append_assoc]) (byteLength_append ..).symm
  have hcontent : from? s.source
      (byteLength s.before.reverse + byteLength opening + sigil.text.length) = some content :=
    from?_of_eq (by rw [hsource, ← List.append_assoc, ← List.append_assoc])
      (by rw [byteLength_append, byteLength_append, hsigil])
  have hsearch : search? (bytes content) (bytes closer) = some (find closer content) :=
    search?_bytes (UsableDelimiters.closer_ne_nil s.inForce sigil) content
  rw [ByteScanner.tag?, tagAt]
  simp only [inBytes, Option.bind_eq_bind]
  rw [hfrom]
  simp only [Option.bind_some]
  rw [hcontent]
  simp only [Option.bind_some]
  rw [hsearch]
  simp only [Option.bind_some, find]
  cases hcut : cut closer content with
  | none =>
    have hopening : slice? s.source (byteLength s.before.reverse)
        (byteLength s.before.reverse + byteLength opening + sigil.text.length) =
          some (opening ++ sigil.text) :=
      slice?_of_eq (by rw [hsource, ← List.append_assoc opening]) rfl
        (by simp only [byteLength_append, hsigil, Nat.add_assoc])
    simp only [Option.map_none]
    rw [hopening]
    rfl
  | some parts =>
    obtain ⟨body, rest⟩ := parts
    have hclosed : content = body ++ (closer ++ rest) := (cut_eq hcut).symm
    let tag := opening ++ sigil.text ++ (body ++ closer)
    let start := byteLength s.before.reverse + byteLength opening + sigil.text.length
    have hwhole : s.source = s.before.reverse ++ (tag ++ rest) := by
      simp only [hsource, hclosed, tag, List.append_assoc]
    have hstop : start + byteLength body + byteLength closer =
        byteLength s.before.reverse + byteLength tag := by
      simp only [start, tag, byteLength_append, hsigil, Nat.add_assoc]
    have htag : slice? s.source (byteLength s.before.reverse)
        (start + byteLength body + byteLength closer) = some tag := by
      rw [hstop, hwhole, slice?_append]
    have hsplit : s.source =
        s.before.reverse ++ (opening ++ sigil.text) ++ (body ++ (closer ++ rest)) := by
      simp only [hsource, hclosed, List.append_assoc]
    have hbody : slice? s.source start (start + byteLength body) = some body :=
      slice?_of_eq hsplit (by simp only [start, byteLength_append, hsigil, Nat.add_assoc])
        (by simp only [start, byteLength_append, hsigil, Nat.add_assoc])
    have hstandalone : standaloneAt? s.source (byteLength s.before.reverse)
        (start + byteLength body + byteLength closer) = some (standaloneAt s.before rest) := by
      rw [hstop, hwhole, standaloneAt?_eq]
    simp only [Option.map_some]
    rw [htag]
    simp only [Option.bind_some]
    rw [hbody]
    simp only [Option.bind_some]
    cases readTag s.inForce (Sigil.leading after) (trim body) with
    | error fault => rfl
    | ok read =>
      have hcursor : byteLength (s.advance tag rest).before.reverse =
          byteLength s.before.reverse + byteLength tag :=
        congrArg ByteScanner.cursor (inBytes_advance tag rest)
      dsimp only
      rw [hstandalone, hstop, ← hcursor]
      rfl

theorem splits_tagAt (h : s.Splits) (hrest : s.rest = s.inForce.val.opening.toList ++ after)
    {tag : SpannedToken} {s' : Scanner} (htag : s.tagAt after = .ok (tag, s')) : s'.Splits := by
  rw [tagAt] at htag
  dsimp only at htag
  split at htag
  · cases htag
  · rename_i body rest hcut
    split at htag
    · cases htag
    · cases htag
      have hparts : s.rest = s.inForce.val.opening.toList ++ (Sigil.leading after).text ++
          (body ++ (Sigil.leading after).closer s.inForce.val.closing.toList) ++ rest := by
        rw [hrest, List.append_assoc, List.append_assoc, List.append_assoc, cut_eq hcut,
          Sigil.text_append_drop]
      exact h.advance hparts

theorem Splits.next (h : s.Splits) : s.next.2.Splits := by
  rw [Scanner.next]
  split
  · exact h
  split
  · split
    · exact h
    · exact h.advance (List.append_nil _).symm
  · rename_i literal after hcut
    have hliteral := h.advance (cut_eq hcut).symm
    dsimp only
    split
    · exact hliteral
    · rename_i htag
      exact splits_tagAt hliteral rfl htag

theorem Splits.of_next {answer : Option (Except Error Scanned)} {s' : Scanner} (h : s.Splits)
    (hnext : s.next = (answer, s')) : s'.Splits := by
  have hs' := h.next
  rwa [hnext] at hs'

/-- A step in bytes is a step of the scanner, and each of its accesses is in place. -/
theorem next?_inBytes (h : s.Splits) :
    s.inBytes.next? = some (s.next.1, s.next.2.inBytes) := by
  by_cases hfinished : s.finished = true
  · have hfinished' : s.inBytes.finished = true := hfinished
    rw [ByteScanner.next?, Scanner.next, if_pos hfinished, if_pos hfinished']
  have hfinished' : ¬ s.inBytes.finished = true := hfinished
  have hfrom : from? s.inBytes.source s.inBytes.cursor = some s.rest := from?_of_eq h rfl
  have hsearch : search? (bytes s.rest) (bytes s.inBytes.inForce.val.opening.toList) =
      some (find s.inForce.val.opening.toList s.rest) :=
    search?_bytes s.inForce.opening_ne_nil s.rest
  rw [ByteScanner.next?, Scanner.next, if_neg hfinished, if_neg hfinished']
  simp only [Option.bind_eq_bind]
  rw [hfrom]
  simp only [Option.bind_some]
  rw [hsearch]
  simp only [Option.bind_some, find]
  cases hcut : cut s.inForce.val.opening.toList s.rest with
  | none =>
    simp only [Option.map_none]
    split
    · rfl
    · rw [← inBytes_advance s.rest []]
      rfl
  | some parts =>
    obtain ⟨literal, after⟩ := parts
    have hparts : s.rest = literal ++ (s.inForce.val.opening.toList ++ after) := (cut_eq hcut).symm
    have hliteral : slice? s.rest 0 (byteLength literal) = some literal := by
      rw [hparts]
      exact slice?_of_eq (List.nil_append _).symm rfl rfl
    have htag := tag?_inBytes (h.advance hparts) rfl
    rw [inBytes_advance] at htag
    simp only [Option.map_some]
    rw [hliteral]
    simp only [Option.bind_some]
    rw [htag]
    simp only [Option.bind_some]
    cases (s.advance literal (s.inForce.val.opening.toList ++ after)).tagAt after with
    | error error =>
      rw [← inBytes_advance literal (s.inForce.val.opening.toList ++ after)]
      rfl
    | ok found => rfl

/-- The calls of a scanner in bytes are those of the scanner. -/
theorem call?_inBytes (h : s.Splits) (n : Nat) : s.inBytes.call? n = some (s.call n) := by
  induction n generalizing s with
  | zero => rw [ByteScanner.call?, next?_inBytes h, call, Option.map_some]
  | succ n ih =>
    rw [ByteScanner.call?, next?_inBytes h, call]
    exact ih h.next

end Scanner

end Mustache
