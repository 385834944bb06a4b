import Mustache.Proofs.Scanner.Lines
import Mustache.Proofs.Tree.Document

/-!
# Mustache.Proofs.Tree.Lines

The tree of a source that is cut behind a line feed.

Nesting commutes with moving down what is nested and with putting nodes in front of it
(`Nesting.addAll_placed`). The nesting of the text below goes on where that of the text above has
stopped, and is such a nesting; so the tree of the whole is the tree above followed by the tree
below, where only a text that meets a text becomes one with it (`Tree.Joins`, `parse_append`).
-/

namespace Mustache

/-! ## Parts of a longer source -/

namespace Text

theorem dropBytes_add (s t : List Char) (n : Nat) :
    dropBytes (n + byteLength s) (s ++ t) = dropBytes n t := by
  induction s with
  | nil => rfl
  | cons c s ih =>
    have := Char.utf8Size_pos c
    rw [List.cons_append, dropBytes, if_neg (by rw [byteLength]; omega), byteLength,
      show n + (c.utf8Size + byteLength s) - c.utf8Size = n + byteLength s by omega, ih]

theorem slice_under (s t : List Char) (start stop : Nat) :
    slice (s ++ t) (start + byteLength s) (stop + byteLength s) = slice t start stop := by
  rw [slice, slice, dropBytes_add, Nat.add_sub_add_right]

theorem takeBytes_append_left {s : List Char} {n : Nat} (h : n ≤ byteLength s) (t : List Char) :
    takeBytes n (s ++ t) = takeBytes n s := by
  induction s generalizing n with
  | nil =>
    obtain rfl : n = 0 := Nat.le_zero.1 h
    cases t <;> simp [takeBytes]
  | cons c s ih =>
    rw [byteLength] at h
    rw [List.cons_append, takeBytes, takeBytes, ih (by omega)]

/-- A part that ends within a text does not depend on what follows the text. -/
theorem slice_above (p s t : List Char) {stop : Nat} (h : stop ≤ byteLength (p ++ s)) :
    slice (p ++ s ++ t) (byteLength p) stop = slice (p ++ s) (byteLength p) stop := by
  rw [byteLength_append] at h
  rw [slice, slice, List.append_assoc, dropBytes_append, dropBytes_append,
    takeBytes_append_left (by omega)]

end Text

theorem slice_above_stands {source : List Char} {a b : Span} (ha : a.Stands source)
    (hb : b.Stands source) (more : List Char) :
    Text.slice (source ++ more) a.stop.offset b.start.offset =
      Text.slice source a.stop.offset b.start.offset := by
  obtain ⟨before, text, after, hsource, -, rfl⟩ := ha
  obtain ⟨before', text', after', hsource', -, rfl⟩ := hb
  have hstart : (Span.covering (.behind before) text).stop.offset =
      Text.byteLength (before ++ text) := by
    rw [Span.covering, Point.advance_behind, Point.offset_behind]
  have hstop : (Span.covering (.behind before') text').start.offset ≤
      Text.byteLength (before ++ text ++ after) := by
    have hlength := congrArg Text.byteLength (hsource.symm.trans hsource')
    rw [← List.append_assoc, Text.byteLength_append before'] at hlength
    rw [hlength]
    show (Point.behind before').offset ≤ _
    rw [Point.offset_behind]
    omega
  rw [hsource, ← List.append_assoc before, hstart]
  exact Text.slice_above _ _ more hstop

/-! ## Nodes below a text -/

namespace Node

mutual

/-- The node with its places moved down by the text. -/
def under (above : List Char) : Node → Node
  | .text s => .text s
  | .interpolation path escaped span => .interpolation path escaped (span.under above)
  | .block path inverted children raw delimiters opening closing =>
    .block path inverted (underAll above children) raw delimiters (opening.under above)
      (closing.under above)
  | .partialTag name indent span => .partialTag name indent (span.under above)
  | .comment s span => .comment s (span.under above)

def underAll (above : List Char) : List Node → List Node
  | [] => []
  | node :: nodes => under above node :: underAll above nodes

end

theorem underAll_eq_map (above : List Char) (nodes : List Node) :
    underAll above nodes = nodes.map (under above) := by
  induction nodes with
  | nil => rfl
  | cons node nodes ih => rw [underAll, ih, List.map_cons]

theorem underAll_reverse (above : List Char) (nodes : List Node) :
    underAll above nodes.reverse = (underAll above nodes).reverse := by
  simp only [underAll_eq_map, List.map_reverse]

theorem underAll_nil (nodes : List Node) : underAll [] nodes = nodes := by
  induction nodes using Node.forestInduction with
  | nil => rfl
  | text s nodes ih => rw [underAll, ih, under]
  | block path inverted children raw delimiters opening closing nodes ihc ih =>
    rw [underAll, ih, under, ihc]
    rfl
  | _ =>
    rename_i ih
    rw [underAll, ih]
    rfl

end Node

open Node

theorem Scanned.under_mk (above literal : List Char) (span : Span) (tag : Option SpannedToken) :
    Scanned.under above ⟨literal, span, tag⟩ =
      ⟨literal, span.under above, tag.map (·.under above)⟩ := rfl

theorem Scanned.map_under_nil (items : List Scanned) : items.map (·.under []) = items := by
  have hitem (item : Scanned) : item.under [] = item := by
    obtain ⟨literal, span, _ | tag⟩ := item <;> rfl
  simp only [hitem, List.map_id']

theorem Error.under_nil (e : Error) : e.under [] = e := by
  cases e <;> rfl

/-! ## Nesting below a text -/

/-- The nodes of a section or of the template, and the sections around it, moved down by the text
and with the nodes `base`, latest first, in front of all. -/
def placedIn (above : List Char) (base : List Node) :
    List Node → List OpenSection → List Node × List OpenSection
  | nodes, [] => (underAll above nodes ++ base, [])
  | nodes, o :: outer =>
    (underAll above nodes,
      { o with
        opening := o.opening.under above
        earlier := (placedIn above base o.earlier outer).1 } ::
          (placedIn above base o.earlier outer).2)

namespace Nesting

def placed (above : List Char) (base : List Node) (n : Nesting) : Nesting :=
  ⟨(placedIn above base n.nodes n.outer).1, (placedIn above base n.nodes n.outer).2, n.inForce,
    n.strip⟩

/-- What nesting below the text gives, if nesting on its own gives this. -/
def placedResult (above : List Char) (base : List Node) :
    Except Error Nesting → Except Error Nesting
  | .error e => .error (e.under above)
  | .ok n => .ok (n.placed above base)

section Placed

variable {above : List Char} {base : List Node} {n : Nesting} {source : List Char}

theorem placedIn_cons (node : Node) (nodes : List Node) (outer : List OpenSection) :
    placedIn above base (node :: nodes) outer =
      (node.under above :: (placedIn above base nodes outer).1,
        (placedIn above base nodes outer).2) := by
  cases outer <;> rfl

theorem placed_push (node : Node) :
    (n.push node).placed above base = (n.placed above base).push (node.under above) := by
  simp only [placed, push, placedIn_cons]

theorem placed_pushText (text : List Char) (strip : Nat) :
    ({ n.pushText text with strip := strip } : Nesting).placed above base =
      { (n.placed above base).pushText text with strip := strip } := by
  rw [pushText, pushText]
  split
  · rfl
  · exact congrArg (fun n : Nesting => { n with strip := strip }) (placed_push _)

theorem closeSection_placed (name : String) (span : Span) :
    (n.placed above base).closeSection (above ++ source) name (span.under above) =
      placedResult above base (n.closeSection source name span) := by
  obtain ⟨nodes, outer, inForce, strip⟩ := n
  cases outer with
  | nil => rfl
  | cons o outer =>
    simp only [closeSection, placed, placedIn]
    split
    · have hslice := Text.slice_under above source o.opening.stop.offset span.start.offset
      simp only [placedResult, placed, placedIn_cons, Node.under, underAll_reverse, ← hslice]
      rfl
    · rfl

theorem addTag_placed (tag : SpannedToken) :
    (n.placed above base).addTag (above ++ source) (tag.under above) =
      placedResult above base (n.addTag source tag) := by
  obtain ⟨token, span, standalone⟩ := tag
  cases token with
  | sectionClose name => exact closeSection_placed name span
  | sectionOpen | invertedOpen | delimiterChange => rfl
  | _ =>
    simp only [addTag, placedResult, placed_push, Node.under]
    rfl

theorem literal_placed (item : Scanned) :
    (n.placed above base).literal (item.under above) = (n.literal item).placed above base := by
  have htrimmable : (item.under above).tag.bind SpannedToken.trimmable =
      item.tag.bind SpannedToken.trimmable := by
    obtain ⟨literal, span, _ | tag⟩ := item <;> rfl
  simp only [literal, placed_pushText, Scanned.claim, htrimmable]
  rfl

theorem add_placed (item : Scanned) :
    (n.placed above base).add (above ++ source) (item.under above) =
      placedResult above base (n.add source item) := by
  rw [add_eq, add_eq, literal_placed]
  obtain ⟨literal, span, _ | tag⟩ := item
  · rfl
  · exact addTag_placed tag

/-- Nesting below a text is nesting, moved down and with nodes in front. -/
theorem addAll_placed (items : List Scanned) :
    (n.placed above base).addAll (above ++ source) (items.map (·.under above)) =
      placedResult above base (n.addAll source items) := by
  induction items generalizing n with
  | nil => rfl
  | cons item items ih =>
    rw [List.map_cons, addAll, addAll, add_placed]
    cases n.add source item with
    | error e => rfl
    | ok n' => exact ih

theorem close_placed :
    (n.placed above base).close =
      match n.close with
      | .error e => .error (e.under above)
      | .ok tree => .ok (base.reverse ++ underAll above tree) := by
  obtain ⟨nodes, outer, inForce, strip⟩ := n
  cases outer with
  | nil => simp only [placed, placedIn, close, List.reverse_append, underAll_reverse]
  | cons o outer => rfl

end Placed

/-! ## Nesting above a text -/

section Above

variable {n n' : Nesting} {source : List Char} {tag : SpannedToken} {items : List Scanned}

theorem addAll_append (n : Nesting) (source : List Char) (items more : List Scanned) :
    n.addAll source (items ++ more) = (n.addAll source items).bind (·.addAll source more) := by
  induction items generalizing n with
  | nil => rfl
  | cons item items ih =>
    rw [List.cons_append, addAll, addAll]
    cases n.add source item with
    | error e => rfl
    | ok n' => exact ih n'

/-- The open sections have their tags in the source. -/
def OpenedFrom (source : List Char) (n : Nesting) : Prop :=
  ∀ o ∈ n.outer, o.opening.Stands source

theorem OpenedFrom.literal (h : OpenedFrom source n) (item : Scanned) :
    OpenedFrom source (n.literal item) := by
  rw [Nesting.literal, pushText_eq]
  exact h

theorem closeSection_above {name : String} {span : Span} (h : OpenedFrom source n)
    (hspan : span.Stands source) (more : List Char) :
    n.closeSection (source ++ more) name span = n.closeSection source name span := by
  cases houter : n.outer with
  | nil => simp only [closeSection, houter]
  | cons o outer =>
    have hopening := h o (houter ▸ List.mem_cons_self)
    simp only [closeSection, houter, slice_above_stands hopening hspan more]

theorem addTag_above (h : OpenedFrom source n) (htag : tag.span.Stands source)
    (more : List Char) : n.addTag (source ++ more) tag = n.addTag source tag := by
  obtain ⟨token, span, standalone⟩ := tag
  cases token with
  | sectionClose name => exact closeSection_above h htag more
  | _ => rfl

theorem OpenedFrom.addTag (h : OpenedFrom source n) (htag : tag.span.Stands source)
    (hadd : n.addTag source tag = .ok n') : OpenedFrom source n' := by
  obtain ⟨token, span, standalone⟩ := tag
  cases token with
  | sectionClose name =>
    obtain ⟨o, outer, houter, -, rfl⟩ := of_closeSection hadd
    exact fun o' ho' => h o' (houter ▸ List.mem_cons_of_mem o ho')
  | sectionOpen | invertedOpen =>
    cases hadd
    exact List.forall_mem_cons.2 ⟨htag, h⟩
  | _ =>
    cases hadd
    exact h

theorem addAll_above (h : OpenedFrom source n)
    (htags : ∀ tag ∈ Scanned.tags items, tag.span.Stands source) (more : List Char) :
    n.addAll (source ++ more) items = n.addAll source items := by
  induction items generalizing n with
  | nil => rfl
  | cons item items ih =>
    obtain ⟨literal, span, _ | tag⟩ := item
    · exact ih (h.literal _) htags
    · rw [Scanned.tags_some, List.forall_mem_cons] at htags
      have hliteral := h.literal ⟨literal, span, some tag⟩
      simp only [addAll, add_eq, Option.elim_some]
      rw [addTag_above hliteral htags.1]
      cases hadd : (n.literal ⟨literal, span, some tag⟩).addTag source tag with
      | error e => rfl
      | ok n' => exact ih (hliteral.addTag htags.1 hadd) htags.2

theorem strip_addTag (hadd : n.addTag source tag = .ok n') : n'.strip = n.strip := by
  obtain ⟨token, span, standalone⟩ := tag
  cases token with
  | sectionClose name =>
    obtain ⟨o, outer, -, -, rfl⟩ := of_closeSection hadd
    rfl
  | _ =>
    cases hadd
    rfl

theorem strip_add {item : Scanned} (hadd : n.add source item = .ok n') :
    n'.strip = item.claim := by
  rw [add_eq] at hadd
  obtain ⟨literal, span, _ | tag⟩ := item
  · cases hadd
    rfl
  · exact strip_addTag hadd

theorem strip_addAll (hadd : n.addAll source items = .ok n') :
    n'.strip = (items.getLast?.map Scanned.claim).getD n.strip := by
  induction items generalizing n with
  | nil =>
    cases hadd
    rfl
  | cons item items ih =>
    rw [addAll] at hadd
    split at hadd
    · cases hadd
    · rename_i hadd₁
      rw [ih hadd, strip_add hadd₁, List.getLast?_cons]
      cases items.getLast? <;> rfl

end Above

/-! ## The text at the cut -/

theorem trimmed_append {s t : List Char} {strip : Nat} {standalone : Option Standalone}
    (hstrip : strip ≤ s.length)
    (hindent : ∀ lone, standalone = some lone → lone.indent.length ≤ t.length) :
    trimmed (s ++ t) strip standalone = trimmed s strip none ++ trimmed t 0 standalone := by
  have hdrop : (s ++ t).drop strip = s.drop strip ++ t := List.drop_append_of_le_length hstrip
  cases standalone with
  | none => simp only [trimmed, hdrop, List.drop_zero]
  | some lone =>
    have hle := hindent lone rfl
    simp only [trimmed, hdrop, List.drop_zero]
    rw [List.length_append, show (s.drop strip).length + t.length - lone.indent.length =
      (s.drop strip).length + (t.length - lone.indent.length) by omega, List.take_length_add_append]

theorem add_literal (n : Nesting) (source literal : List Char) (span span' : Span)
    (tag : Option SpannedToken) :
    n.add source ⟨literal, span, tag⟩ =
      { n.pushText (trimmed literal n.strip (tag.bind SpannedToken.trimmable)) with
        strip := 0 }.add source ⟨[], span', tag⟩ := by
  have hempty (standalone : Option Standalone) : trimmed [] 0 standalone = [] := by
    cases standalone <;> simp [trimmed]
  rw [add_eq, add_eq]
  simp only [Nesting.literal, hempty, pushText_eq, textNodes, List.isEmpty_nil, if_true,
    List.nil_append]
  rfl

end Nesting

/-! ## Trees -/

/-- A tree that is cut in two, between two nodes or within a text; the places of the part below are
counted from the cut. -/
inductive Tree.Joins (above : List Char) : Tree → Tree → Tree → Prop where
  | intro (nodes more : Tree) (s t : List Char) :
      Joins above (nodes ++ textNodes s) (textNodes t ++ more)
        (nodes ++ (textNodes (s ++ t) ++ underAll above more))

/-- How parsing the whole ends, if parsing the part below ends so. -/
inductive Tree.Continues (above : List Char) (tree : Tree) :
    Except Error Tree → Except Error Tree → Prop where
  | error (e : Error) : Continues above tree (.error e) (.error (e.under above))
  | ok {below joined : Tree} : Joins above tree below joined →
      Continues above tree (.ok below) (.ok joined)

theorem reverse_textNodes (text : List Char) : (textNodes text).reverse = textNodes text := by
  rw [textNodes]
  split <;> rfl

theorem Tree.joins_nil (tree : Tree) : Tree.Joins [] [] tree tree := by
  have h : Tree.Joins [] ([] ++ textNodes []) (textNodes [] ++ tree) _ := .intro [] tree [] []
  rwa [underAll_nil] at h

open Nesting

section Join

variable {above below : List Char} {m n : Nesting} {pair pair' : UsableDelimiters}
  {items front : List Scanned} {failure : Option Error} {text scanned : List Char} {span : Span}
  {tree : Tree}

theorem parsed_placed (above : List Char) (base : List Node) (failure : Option Error)
    (result : Except Error Nesting) :
    parsed (failure.map (·.under above)) (placedResult above base result) =
      match parsed failure result with
      | .error e => .error (e.under above)
      | .ok tree => .ok (base.reverse ++ underAll above tree) := by
  cases result with
  | error e => rfl
  | ok n =>
    cases failure with
    | some e => rfl
    | none => exact close_placed

theorem Scans.indent_le {source literal : List Char} {tag : SpannedToken} {lone : Standalone}
    (h : Scans [] pair source (⟨literal, span, some tag⟩ :: items) failure)
    (hlone : tag.trimmable = some lone) : lone.indent.length ≤ literal.length := by
  cases h with
  | tag =>
    rw [SpannedToken.trimmable] at hlone
    split at hlone
    · have hle := Mustache.indent_le hlone
      rwa [List.length_reverse, List.nil_append] at hle
    · cases hlone

/-- Nesting goes on behind a text as it begins without one, but for the text at the cut. -/
theorem addAll_runOn (above below text : List Char) (items : List Scanned) {d : Delimiters}
    (houter : m.outer = []) (hinForce : m.inForce = d) (hstrip : m.strip ≤ text.length)
    {literal : List Char} {tag : Option SpannedToken}
    (hindent : ∀ lone, tag.bind SpannedToken.trimmable = some lone →
      lone.indent.length ≤ literal.length) (span span' : Span) :
    m.addAll (above ++ below) (⟨text ++ literal, span', tag.map (·.under above)⟩ ::
        items.map (·.under above)) =
      placedResult above (textNodes (trimmed text m.strip none ++
          trimmed literal 0 (tag.bind SpannedToken.trimmable)) ++ m.nodes)
        ((Nesting.initial d).addAll below (⟨[], span, tag⟩ :: items)) := by
  have htrimmable : (tag.map (·.under above)).bind SpannedToken.trimmable =
      tag.bind SpannedToken.trimmable := by
    cases tag <;> rfl
  rw [← addAll_placed, List.map_cons, addAll, addAll,
    add_literal m _ (text ++ literal) span' (span.under above), htrimmable,
    trimmed_append hstrip hindent, pushText_eq]
  obtain ⟨nodes, outer, inForce, strip⟩ := m
  cases houter
  cases hinForce
  rfl

theorem addAll_first {source literal : List Char} {d : Delimiters} {tag : Option SpannedToken}
    (hindent : ∀ lone, tag.bind SpannedToken.trimmable = some lone →
      lone.indent.length ≤ literal.length) :
    (Nesting.initial d).addAll source (⟨literal, span, tag⟩ :: items) =
      placedResult [] (textNodes (trimmed literal 0 (tag.bind SpannedToken.trimmable)))
        ((Nesting.initial d).addAll source (⟨[], span, tag⟩ :: items)) := by
  have hcut := addAll_runOn [] source [] items (m := .initial d) rfl rfl (Nat.zero_le _) hindent
    span span
  have htag : tag.map (·.under []) = tag := by cases tag <;> rfl
  rw [Scanned.map_under_nil, htag] at hcut
  have hbase : textNodes (trimmed [] (Nesting.initial d).strip none ++
      trimmed literal 0 (tag.bind SpannedToken.trimmable)) ++ (Nesting.initial d).nodes =
        textNodes (trimmed literal 0 (tag.bind SpannedToken.trimmable)) := List.append_nil _
  rw [hbase] at hcut
  exact hcut

/-- What is made of the text at the cut and of what is below it. `m` is the nesting of what is
above, without the last text. -/
theorem parsed_runOn (houter : m.outer = []) (hinForce : m.inForce = pair'.val)
    (hstrip : m.strip ≤ text.length) (h : Scans [] pair' below items failure) :
    Tree.Continues above (m.nodes.reverse ++ textNodes (trimmed text m.strip none))
      (Tree.parse below pair'.val)
      (parsed (failure.map (·.under above)) (m.addAll (above ++ below)
        (runOn scanned text (items.map (·.under above)) (failure.map (·.under above))))) := by
  rw [h.parse_eq]
  cases items with
  | nil =>
    cases failure with
    | some e => exact .error e
    | none =>
      let nested : Nesting := { m.pushText (trimmed text m.strip none) with strip := 0 }
      have hclose :
          nested.close = .ok (m.nodes.reverse ++ textNodes (trimmed text m.strip none)) := by
        simp only [nested, pushText_eq, Nesting.close, houter, List.reverse_append,
          reverse_textNodes]
      show Tree.Continues above _ (.ok []) nested.close
      have hjoins : Tree.Joins above _ (textNodes [] ++ []) _ :=
        .intro m.nodes.reverse [] (trimmed text m.strip none) []
      simp only [underAll, List.append_nil] at hjoins
      rw [hclose]
      exact .ok hjoins
  | cons item items =>
    obtain ⟨literal, span, tag⟩ := item
    have hindent : ∀ lone, tag.bind SpannedToken.trimmable = some lone →
        lone.indent.length ≤ literal.length := by
      intro lone hlone
      cases tag with
      | none => cases hlone
      | some tag => exact h.indent_le hlone
    have hfailure : failure.map (·.under []) = failure := by
      cases failure with
      | none => rfl
      | some e => exact congrArg some e.under_nil
    let first := trimmed literal 0 (tag.bind SpannedToken.trimmable)
    let nested := (Nesting.initial pair'.val).addAll below (⟨[], span, tag⟩ :: items)
    have hbelow := parsed_placed [] (textNodes first) failure nested
    have hwhole := parsed_placed above
      (textNodes (trimmed text m.strip none ++ first) ++ m.nodes) failure nested
    rw [hfailure, ← addAll_first hindent] at hbelow
    rw [← addAll_runOn above below text items houter hinForce hstrip hindent span
      (.covering (.behind scanned) (text ++ literal))] at hwhole
    rw [hbelow, List.map_cons, Scanned.under_mk, runOn_cons, hwhole]
    cases parsed failure nested with
    | error e =>
      dsimp only
      rw [Error.under_nil]
      exact .error e
    | ok more =>
      dsimp only
      rw [List.reverse_append, reverse_textNodes, reverse_textNodes, underAll_nil,
        List.append_assoc]
      exact .ok (.intro m.nodes.reverse more _ _)

/-- The source `above ++ below` is parsed as its parts are, if the first one ends a line. -/
theorem parse_append (hline : EndsLine above) (h : Scans [] pair above items none)
    (hpair : pair'.val = inForceBehind pair.val (Scanned.tags items))
    (htree : Tree.parse above pair.val = .ok tree) (below : List Char) :
    Tree.Continues above tree (Tree.parse below pair'.val)
      (Tree.parse (above ++ below) pair.val) := by
  rcases hline with rfl | ⟨s, hs⟩
  · obtain ⟨rfl, -⟩ := h.unique .done
    obtain rfl : pair' = pair := Subtype.ext hpair
    rw [h.parse_eq] at htree
    cases htree
    rw [List.nil_append]
    cases Tree.parse below pair'.val with
    | error e =>
      have herror : Tree.Continues [] [] (.error e) _ := .error e
      rwa [Error.under_nil] at herror
    | ok more => exact .ok (Tree.joins_nil more)
  · obtain ⟨items', failure, hbelow⟩ := scans_total [] pair' below
    have hunder : Scans ([] ++ above) pair' below (items'.map (·.under above))
        (failure.map (·.under above)) := by
      have hscans := hbelow.under (.inr ⟨s, hs⟩ : EndsLine above)
      rwa [List.append_nil] at hscans
    obtain ⟨front, text, span, scanned, rfl, -, -, hclaim, hjoined⟩ := h.join hs hpair hunder
    have htags : Scanned.tags (front ++ [⟨text, span, none⟩]) = Scanned.tags front := by
      rw [Scanned.tags_append, Scanned.tags_none, Scanned.tags_nil, List.append_nil]
    have hisTag := h.isTag
    have hstands : ∀ tag ∈ Scanned.tags front, tag.span.Stands above :=
      fun tag htag => (h.stands tag (htags ▸ htag)).1
    have hopened : OpenedFrom above (.initial pair.val) := fun o ho => by cases ho
    rw [htags] at hpair hisTag
    rw [h.parse_eq, addAll_append] at htree
    rw [hjoined.parse_eq, addAll_append, addAll_above hopened hstands]
    cases hfront : (Nesting.initial pair.val).addAll above front with
    | error e =>
      rw [hfront] at htree
      cases htree
    | ok m =>
      rw [hfront] at htree
      have hinForce : m.inForce = pair'.val := by
        rw [hpair]
        exact ((tracks_initial above pair.val).addAll hisTag hfront).inForce
      have hstrip : m.strip ≤ text.length := by
        rw [strip_addAll hfront]
        cases hlast : front.getLast? with
        | none => exact Nat.zero_le _
        | some item => exact hclaim item hlast
      have hclose : ({ m.pushText (trimmed text m.strip none) with strip := 0 } : Nesting).close =
          .ok tree := htree
      rw [pushText_eq, Nesting.close] at hclose
      split at hclose
      case h_2 => cases hclose
      case h_1 houter =>
      obtain rfl := Except.ok.inj hclose
      rw [List.reverse_append, reverse_textNodes]
      exact parsed_runOn houter hinForce hstrip hbelow

end Join

theorem ChangeLine.parse {line : List Char} {pair pair' : UsableDelimiters}
    (h : ChangeLine pair pair' line) :
    ∃ items, Scans [] pair line items none ∧
      inForceBehind pair.val (Scanned.tags items) = pair'.val ∧
      Tree.parse line pair.val = .ok [] := by
  obtain ⟨indent, trailing, span, span', tag, hscans, htoken, hlone⟩ := h.scans
  obtain ⟨token, tagSpan, standalone⟩ := tag
  dsimp only at htoken hlone
  subst htoken hlone
  refine ⟨_, hscans, rfl, ?_⟩
  -- The line claims the text before the tag and all of the text behind it.
  have hindent : trimmed indent 0 (some ⟨String.ofList indent, trailing.length + 1⟩) = [] := by
    simp [trimmed]
  have htrailing : trimmed (trailing ++ ['\n']) (trailing.length + 1) none = [] := by
    simp [trimmed]
  rw [hscans.parse_eq]
  simp only [Nesting.addAll, Nesting.add, Nesting.addTag, SpannedToken.trimmable,
    Token.allowsStandalone, if_true, Nesting.initial, hindent, htrailing, pushText_eq, textNodes,
    List.isEmpty_nil, List.nil_append]
  rfl

end Mustache
