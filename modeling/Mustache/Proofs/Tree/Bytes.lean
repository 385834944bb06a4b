import Mustache.Proofs.Scanner.Bytes
import Mustache.Proofs.Tree.Lines

/-!
# Mustache.Proofs.Tree.Bytes

Parsing with the bytes of the source.

`Tree.parse?` scans with a `ByteScanner` and nests each tag as it comes. It takes the blanks of lone
tags off the literal texts, and the text of a section out of the source, by counts of bytes. It
always gives the tree or the error of `Tree.parse`, so no source and no pair of delimiters leads to
an access that is out of place (`reads_in_place`).

Two things are known of a nesting on the way (`Nesting.InPlace`): where its open sections begin is
behind the scanner, and what the last tag claims of the text to come is blanks of one byte.
-/

namespace Mustache

open Text UsableDelimiters

theorem Span.Stands.append {s : List Char} {span : Span} (h : span.Stands s) (t : List Char) :
    span.Stands (s ++ t) := by
  obtain ⟨before, text, after, rfl, hne, hspan⟩ := h
  exact ⟨before, text, after ++ t, by simp only [List.append_assoc], hne, hspan⟩

/-! ## Nesting, in bytes -/

namespace Nesting

def trimmed? (literal : List Char) (strip : Nat) (standalone : Option Standalone) :
    Option (List Char) := do
  let text ← from? literal (min strip (byteLength literal))
  match standalone with
  | none => some text
  | some lone => truncate? text (byteLength text - byteLength lone.indent.toList)

def closeSection? (n : Nesting) (source : List Char) (name : String) (span : Span) :
    Option (Except Error Nesting) :=
  match n.outer with
  | [] => some (.error (unmatched name none span))
  | innermost :: outer =>
    if innermost.path = name then do
      let raw ← slice? source innermost.opening.stop.offset span.start.offset
      let node := Node.block name innermost.inverted n.nodes.reverse (String.ofList raw)
        innermost.delimiters innermost.opening span
      some (.ok { n with nodes := node :: innermost.earlier, outer := outer })
    else some (.error (unmatched name (some innermost.path) span))

/-- Only the end of a section takes something out of the source. -/
def addTag? (n : Nesting) (source : List Char) (tag : SpannedToken) :
    Option (Except Error Nesting) :=
  match tag.token with
  | .sectionClose name => n.closeSection? source name tag.span
  | _ => some (n.addTag source tag)

def add? (n : Nesting) (source : List Char) (item : Scanned) : Option (Except Error Nesting) := do
  let text ← trimmed? item.literal n.strip (item.tag.bind SpannedToken.trimmable)
  let n' := { n.pushText text with strip := item.claim }
  match item.tag with
  | none => some (.ok n')
  | some tag => n'.addTag? source tag

end Nesting

/-- Scans, and nests what is scanned. There is no answer if an access is out of place, nor if the
scanner gives something without going on. -/
def parseFrom? (s : ByteScanner) (n : Nesting) : Option (Except Error Tree) := do
  match ← s.next? with
  | (none, _) => some n.close
  | (some (.error error), _) => some (.error error)
  | (some (.ok item), s') =>
    match ← n.add? s.source item with
    | .error error => some (.error error)
    | .ok n' => if s'.left < s.left then parseFrom? s' n' else none
termination_by s.left

def Tree.parse? (source : List Char) (delimiters : Delimiters) : Option (Except Error Tree) :=
  match delimiters.check with
  | .error fault =>
    some (.error (Scanner.malformed delimiters.text.toList (.delimiters fault) .start))
  | .ok pair => parseFrom? (.ofUsable source pair) (.initial delimiters)

/-! ## Lone tags -/

theorem indent_suffix {before after : List Char} {lone : Standalone}
    (h : standaloneAt before after = some lone) : lone.indent.toList <:+ before.reverse := by
  rw [standaloneAt_eq] at h
  split at h
  · obtain rfl := Option.some.inj h
    rw [String.toList_ofList]
    exact List.reverse_suffix.2 (List.takeWhile_prefix isIndent)
  · cases h

theorem utf8Size_of_mem_trailing {before after : List Char} {lone : Standalone}
    (h : standaloneAt before after = some lone) :
    ∀ c ∈ after.take lone.trailing, c.utf8Size = 1 := by
  have hblanks : ∀ c ∈ after.takeWhile isTrailing, c.utf8Size = 1 := fun c hc =>
    utf8Size_of_isTrailing (List.mem_takeWhile_imp hc)
  have hafter : after.takeWhile isTrailing ++ after.dropWhile isTrailing = after :=
    List.takeWhile_append_dropWhile
  rw [standaloneAt_eq] at h
  generalize after.takeWhile isTrailing = blanks at h hblanks hafter
  generalize after.dropWhile isTrailing = rest at h hafter
  subst hafter
  split at h
  · rename_i hline
    obtain rfl := Option.some.inj h
    cases rest with
    | nil => simpa using hblanks
    | cons c rest =>
      obtain rfl : c = '\n' := hline.2
      have htake : (blanks ++ '\n' :: rest).take (blanks.length + 1) = blanks ++ ['\n'] :=
        List.take_length_add_append 1
      simp only [List.isEmpty_cons, Bool.false_eq_true, if_false]
      rw [htake, List.forall_mem_append]
      exact ⟨hblanks, List.forall_mem_singleton.2 rfl⟩
  · cases h

namespace Nesting

theorem trimmed?_eq {literal whole : List Char} {strip : Nat} {standalone : Option Standalone}
    (hstrip : ∀ c ∈ literal.take strip, c.utf8Size = 1) (hliteral : literal <:+ whole)
    (hindent : ∀ lone, standalone = some lone → lone.indent.toList <:+ whole) :
    trimmed? literal strip standalone = some (trimmed literal strip standalone) := by
  rw [trimmed?, from?_drop hstrip]
  cases standalone with
  | none => rfl
  | some lone =>
    have htext := (List.drop_suffix strip literal).trans hliteral
    have htrunc := truncate?_take htext (hindent lone rfl)
    rw [String.length_toList] at htrunc
    exact htrunc

/-! ## Steps of nesting -/

/-- A nesting behind `scanned` with `rest` to come. -/
structure InPlace (scanned rest : List Char) (n : Nesting) : Prop where
  opened : OpenedFrom scanned n
  claimed : ∀ c ∈ rest.take n.strip, c.utf8Size = 1

section Steps

variable {n n' : Nesting} {source scanned literal text rest : List Char} {token : Token}
  {span : Span}

theorem inPlace_initial (source : List Char) (d : Delimiters) :
    (initial d).InPlace [] source where
  opened o ho := by cases ho
  claimed c hc := by simp [initial] at hc

theorem closeSection?_eq {name : String}
    (hraw : ∀ o ∈ n.outer, ∃ raw,
      slice? source o.opening.stop.offset span.start.offset = some raw) :
    n.closeSection? source name span = some (n.closeSection source name span) := by
  rw [closeSection?, closeSection]
  cases houter : n.outer with
  | nil => rfl
  | cons o outer =>
    obtain ⟨raw, hslice⟩ := hraw o (houter ▸ List.mem_cons_self)
    dsimp only
    rw [hslice, slice?_eq hslice]
    split <;> rfl

/-- Between the tag that opens a section and what is scanned next lies a text of the source. -/
theorem OpenedFrom.slice? (h : OpenedFrom scanned n) {o : OpenSection} (ho : o ∈ n.outer)
    (literal rest : List Char) :
    ∃ raw, Text.slice? (scanned ++ (literal ++ rest)) o.opening.stop.offset
      (Point.behind (scanned ++ literal)).offset = some raw := by
  obtain ⟨before, opening, between, rfl, -, hopening⟩ := h o ho
  have hstart : o.opening.stop.offset = byteLength (before ++ opening) := by
    rw [hopening, Span.covering, Point.advance_behind, Point.offset_behind]
  have hsource : before ++ (opening ++ between) ++ (literal ++ rest) =
      before ++ opening ++ (between ++ literal ++ rest) := by
    simp only [List.append_assoc]
  refine ⟨between ++ literal, slice?_of_eq hsource hstart ?_⟩
  simp only [Point.offset_behind, List.append_assoc]

theorem addTag?_eq (h : OpenedFrom scanned n) (standalone : Option Standalone) :
    n.addTag? (scanned ++ (literal ++ rest))
        ⟨token, .covering (.behind (scanned ++ literal)) text, standalone⟩ =
      some (n.addTag (scanned ++ (literal ++ rest))
        ⟨token, .covering (.behind (scanned ++ literal)) text, standalone⟩) := by
  cases token with
  | sectionClose name => exact closeSection?_eq fun o ho => h.slice? ho literal rest
  | _ => rfl

theorem OpenedFrom.addTag_append {tag : SpannedToken} (h : OpenedFrom source n)
    (hadd : n.addTag (source ++ rest) tag = .ok n') (htag : tag.span.Stands source) :
    OpenedFrom source n' := by
  rw [addTag_above h htag] at hadd
  exact h.addTag htag hadd

theorem InPlace.trimmed? (h : n.InPlace scanned (literal ++ rest))
    {standalone : Option Standalone}
    (hindent : ∀ lone, standalone = some lone → lone.indent.toList <:+ scanned ++ literal) :
    Nesting.trimmed? literal n.strip standalone = some (trimmed literal n.strip standalone) := by
  refine trimmed?_eq (fun c hc => h.claimed c ?_) (List.suffix_append scanned literal) hindent
  rw [List.take_append]
  exact List.mem_append_left _ hc

theorem InPlace.add?_text (h : n.InPlace scanned literal) :
    n.add? source ⟨literal, span, none⟩ = some (n.add source ⟨literal, span, none⟩) := by
  rw [← List.append_nil literal] at h
  have htext : Nesting.trimmed? literal n.strip none = some (trimmed literal n.strip none) :=
    h.trimmed? fun lone hlone => by cases hlone
  rw [add?]
  simp only [Option.bind_none, htext]
  rfl

def scannedTag (scanned literal text rest : List Char) (token : Token) : Scanned :=
  ⟨literal, .covering (.behind scanned) literal,
    some ⟨token, .covering (.behind (scanned ++ literal)) text,
      standaloneAt (scanned ++ literal).reverse rest⟩⟩

theorem standaloneAt_of_trimmable {lone : Standalone}
    (h : (scannedTag scanned literal text rest token).tag.bind SpannedToken.trimmable =
      some lone) :
    standaloneAt (scanned ++ literal).reverse rest = some lone := by
  simp only [scannedTag, Option.bind_some, SpannedToken.trimmable] at h
  split at h
  · exact h
  · cases h

theorem InPlace.add?_tag (h : n.InPlace scanned (literal ++ (text ++ rest)))
    (hsource : source = scanned ++ (literal ++ (text ++ rest))) :
    n.add? source (scannedTag scanned literal text rest token) =
      some (n.add source (scannedTag scanned literal text rest token)) := by
  have htext := h.trimmed? fun lone (hlone : (scannedTag scanned literal text rest token).tag.bind
      SpannedToken.trimmable = some lone) => by
    have hindent := indent_suffix (standaloneAt_of_trimmable hlone)
    rwa [List.reverse_reverse] at hindent
  rw [add?, add_eq, hsource]
  rw [show (scannedTag scanned literal text rest token).literal = literal from rfl, htext]
  exact addTag?_eq (h.opened.literal _) _

theorem InPlace.add (h : n.InPlace scanned (literal ++ (text ++ rest)))
    (hsource : source = scanned ++ (literal ++ (text ++ rest))) (htext : text ≠ [])
    (hadd : n.add source (scannedTag scanned literal text rest token) = .ok n') :
    n'.InPlace (scanned ++ literal ++ text) rest where
  opened := by
    have hsource' : source = scanned ++ literal ++ text ++ rest := by
      simp only [hsource, List.append_assoc]
    have hopened : OpenedFrom (scanned ++ literal ++ text) n := fun o ho => by
      rw [List.append_assoc]
      exact (h.opened o ho).append _
    have htag : (Span.covering (.behind (scanned ++ literal)) text).Stands
        (scanned ++ literal ++ text) := ⟨scanned ++ literal, text, [], by simp, htext, rfl⟩
    rw [add_eq, hsource'] at hadd
    exact OpenedFrom.addTag_append (hopened.literal _) hadd htag
  claimed := by
    rw [strip_add hadd, Scanned.claim]
    split
    · rename_i hlone
      exact utf8Size_of_mem_trailing (standaloneAt_of_trimmable hlone)
    · simp

end Steps

end Nesting

/-! ## Runs -/

section Runs

variable {s s' : Scanner} {n : Nesting}

theorem parseFrom?_of_next_none (h : s.Splits) (hnext : s.next = (none, s')) :
    parseFrom? s.inBytes n = some n.close := by
  rw [parseFrom?, Scanner.next?_inBytes h, hnext]
  rfl

theorem parseFrom?_of_next_error {e : Error} (h : s.Splits)
    (hnext : s.next = (some (.error e), s')) : parseFrom? s.inBytes n = some (.error e) := by
  rw [parseFrom?, Scanner.next?_inBytes h, hnext]
  rfl

theorem parseFrom?_of_next {item : Scanned} {items : List Scanned} {failure : Option Error}
    (h : s.Splits) (hnext : s.next = (some (.ok item), s'))
    (hless : byteLength s'.rest < byteLength s.rest)
    (hadd : n.add? s.source item = some (n.add s.source item))
    (hrest : ∀ n', n.add s.source item = .ok n' →
      parseFrom? s'.inBytes n' = some (parsed failure (n'.addAll s.source items))) :
    parseFrom? s.inBytes n = some (parsed failure (n.addAll s.source (item :: items))) := by
  have hleft : s'.inBytes.left < s.inBytes.left := by
    rwa [h.left, (h.of_next hnext).left]
  have hstep : parseFrom? s.inBytes n =
      match n.add s.source item with
      | .error error => some (.error error)
      | .ok n' => parseFrom? s'.inBytes n' := by
    rw [parseFrom?, Scanner.next?_inBytes h, hnext]
    show (n.add? s.source item).bind _ = _
    rw [hadd, Option.bind_some]
    simp only [if_pos hleft]
  rw [hstep, Nesting.addAll]
  cases hn : n.add s.source item with
  | error e => rfl
  | ok n' => exact hrest n' hn

/-- Scanning and nesting in bytes ends, and as scanning and then nesting does. -/
theorem Scans.parseFrom?_eq {source scanned rest : List Char} {initial pair : UsableDelimiters}
    {items : List Scanned} {failure : Option Error} (h : Scans scanned pair rest items failure)
    (hsource : source = scanned ++ rest) (hn : n.InPlace scanned rest) :
    parseFrom? (Scanner.behind source initial pair scanned rest).inBytes n =
      some (parsed failure (n.addAll source items)) := by
  have hsplits := Scanner.splits_behind hsource initial
  induction h generalizing n with
  | @done scanned pair => exact parseFrom?_of_next_none (hsplits pair) Scanner.next_behind_nil
  | @trailing scanned pair text hne htext =>
    have hnext : (Scanner.behind source initial pair scanned text).next = _ :=
      Scanner.next_behind_trailing hne htext
    refine parseFrom?_of_next (hsplits pair) hnext (byteLength_pos hne) hn.add?_text fun n' _ => ?_
    -- There is one more call, of a scanner that has finished.
    exact parseFrom?_of_next_none ((hsplits pair).of_next hnext)
      (by rw [Scanner.next, if_pos (by rfl)])
  | @tag scanned pair literal sigil body token pair' rest items failure hd hread _ ih =>
    have hnext := Scanner.next_behind source initial scanned hd.opened
      (sigil.text ++ (body ++ (pair.closer sigil ++ rest)))
    rw [Scanner.tagAt_behind hd.leading hd.closed, hread, ← pair.tag_append] at hnext
    have hsource' : source = scanned ++ literal ++ pair.tag sigil body ++ rest := by
      simp only [hsource, List.append_assoc]
    have hless : byteLength rest < byteLength (literal ++ (pair.tag sigil body ++ rest)) := by
      have hpos := byteLength_pos (pair.tag_ne_nil sigil body)
      rw [byteLength_append, byteLength_append]
      omega
    refine parseFrom?_of_next (hsplits pair) hnext hless (hn.add?_tag hsource) fun n' hadd => ?_
    have hn' := hn.add hsource (pair.tag_ne_nil sigil body) hadd
    exact ih hsource' hn' (Scanner.splits_behind hsource' initial)
  | @malformed scanned pair literal sigil body fault rest hd hread =>
    have hnext := Scanner.next_behind source initial scanned hd.opened
      (sigil.text ++ (body ++ (pair.closer sigil ++ rest)))
    rw [Scanner.tagAt_behind hd.leading hd.closed, hread, ← pair.tag_append] at hnext
    exact parseFrom?_of_next_error (hsplits pair) hnext
  | @unclosed scanned pair literal sigil content hopened hleading hclosed =>
    have hnext := Scanner.next_behind source initial scanned hopened (sigil.text ++ content)
    rw [Scanner.tagAt_behind_unclosed hleading hclosed] at hnext
    exact parseFrom?_of_next_error (hsplits pair) hnext

theorem Tree.parse?_eq (source : List Char) (delimiters : Delimiters) :
    Tree.parse? source delimiters = some (Tree.parse source delimiters) := by
  cases hcheck : delimiters.check with
  | error fault => simp only [Tree.parse?, Tree.parse, Scanner.ofSource, hcheck]
  | ok pair =>
    obtain rfl := Delimiters.check_eq_ok_iff.1 hcheck
    obtain ⟨items, failure, h⟩ := scans_total [] pair source
    rw [h.parse_eq, Tree.parse?, hcheck]
    exact h.parseFrom?_eq rfl (Nesting.inPlace_initial source pair.val)

end Runs

/-- Every access to a source is in place, whatever the source and the delimiters: each call of a
scanner in bytes gives what the scanner gives, and so does parsing. -/
theorem reads_in_place (source : List Char) :
    (∀ pair n, (ByteScanner.ofUsable source pair).call? n =
      some ((Scanner.ofUsable source pair).call n)) ∧
    ∀ delimiters, Tree.parse? source delimiters = some (Tree.parse source delimiters) :=
  ⟨fun pair n => Scanner.call?_inBytes (Scanner.splits_ofUsable source pair) n,
    Tree.parse?_eq source⟩

end Mustache
