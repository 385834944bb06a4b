import Mustache.Proofs.Scanner.Places
import Mustache.Proofs.Tree.Balance

/-!
# Mustache.Proofs.Tree.Document

The tree of a template against the tags of its source.

Read in document order, a section as its opening tag, what is inside it and its close tag, the tree
has the tags that the scanner gives, changes of delimiters apart (`Node.tagsAll`, `keptTags`). Each
section keeps the source text between its tags and the delimiters that are in force at the first of
them (`Section.Faithful`). `parse_faithful` puts this together.

* `Tracks`: what holds of a nesting behind each tag, the sections that are open included.
* `Section.tags_infix`: the tags of a section lie side by side among those of the tree, so that the
  order of the tags gives the order of the spans at every depth.
-/

namespace Mustache

def Token.opening (path : String) (inverted : Bool) : Token :=
  if inverted then .invertedOpen path else .sectionOpen path

def Token.isChange : Token → Bool
  | .delimiterChange _ => true
  | _ => false

/-- The tags that have a place in a tree: all but the changes of delimiters. -/
def keptTags (tags : List SpannedToken) : List (Token × Span) :=
  (tags.filter fun tag => !tag.token.isChange).map fun tag => (tag.token, tag.span)

theorem keptTags_append (tags more : List SpannedToken) :
    keptTags (tags ++ more) = keptTags tags ++ keptTags more := by
  simp [keptTags]

theorem keptTags_change {tag : SpannedToken} (h : tag.token.isChange = true) :
    keptTags [tag] = [] := by
  simp [keptTags, h]

theorem keptTags_singleton {tag : SpannedToken} (h : tag.token.isChange = false) :
    keptTags [tag] = [(tag.token, tag.span)] := by
  simp [keptTags, h]

theorem mem_keptTags {tags : List SpannedToken} {token : Token} {span : Span}
    (h : (token, span) ∈ keptTags tags) : ∃ tag ∈ tags, tag.span = span := by
  obtain ⟨tag, htag, heq⟩ := List.mem_map.1 h
  exact ⟨tag, List.mem_of_mem_filter htag, congrArg Prod.snd heq⟩

theorem keptTags_sublist (tags : List SpannedToken) :
    ((keptTags tags).map (·.2)).Sublist (tags.map (·.span)) := by
  rw [keptTags, List.map_map]
  exact List.filter_sublist.map _

/-! ## Reading a tree -/

structure Section where
  path : String
  inverted : Bool
  children : List Node
  raw : String
  delimiters : Delimiters
  opening : Span
  closing : Span

namespace Node

mutual

def tags : Node → List (Token × Span)
  | .text _ => []
  | .interpolation path escaped span => [(.interpolation path escaped, span)]
  | .block path inverted children _ _ opening closing =>
    (.opening path inverted, opening) :: (tagsAll children ++ [(.sectionClose path, closing)])
  | .partialTag name _ span => [(.partialTag name, span)]
  | .comment s span => [(.comment s, span)]

def tagsAll : List Node → List (Token × Span)
  | [] => []
  | node :: nodes => tags node ++ tagsAll nodes

end

mutual

/-- The sections in a node, at every depth. -/
def sections : Node → List Section
  | .block path inverted children raw delimiters opening closing =>
    ⟨path, inverted, children, raw, delimiters, opening, closing⟩ :: sectionsAll children
  | _ => []

def sectionsAll : List Node → List Section
  | [] => []
  | node :: nodes => sections node ++ sectionsAll nodes

end

/-- What a node covers; a section reaches from its opening tag to its close tag. -/
def span? : Node → Option Span
  | .text _ => none
  | .interpolation _ _ span | .partialTag _ _ span | .comment _ span => some span
  | .block _ _ _ _ _ opening closing => some ⟨opening.start, closing.stop⟩

theorem tagsAll_append (nodes more : List Node) :
    tagsAll (nodes ++ more) = tagsAll nodes ++ tagsAll more := by
  induction nodes with
  | nil => rfl
  | cons node nodes ih => simp only [List.cons_append, tagsAll, ih, List.append_assoc]

theorem tagsAll_reverse_cons (node : Node) (nodes : List Node) :
    tagsAll (node :: nodes).reverse = tagsAll nodes.reverse ++ node.tags := by
  simp only [List.reverse_cons, tagsAll_append, tagsAll, List.append_nil]

theorem mem_sectionsAll {s : Section} {nodes : List Node} :
    s ∈ sectionsAll nodes ↔ ∃ node ∈ nodes, s ∈ node.sections := by
  induction nodes with
  | nil => simp [sectionsAll]
  | cons node nodes ih => simp [sectionsAll, ih]

theorem mem_sectionsAll_reverse {s : Section} {nodes : List Node} :
    s ∈ sectionsAll nodes.reverse ↔ s ∈ sectionsAll nodes := by
  simp only [mem_sectionsAll, List.mem_reverse]

end Node

/-! ## Spans of a tree whose tags stand in order -/

open Node

theorem Node.span_of_tags {node : Node} {span : Span} (h : node.span? = some span) :
    (∃ a ∈ node.tags, span.start = a.2.start) ∧ ∃ b ∈ node.tags, span.stop = b.2.stop := by
  cases node with
  | text => cases h
  | interpolation | partialTag | comment =>
    cases h
    exact ⟨⟨_, List.mem_singleton_self _, rfl⟩, ⟨_, List.mem_singleton_self _, rfl⟩⟩
  | block path inverted children raw delimiters opening closing =>
    cases h
    exact ⟨⟨_, List.mem_cons_self, rfl⟩,
      ⟨(.sectionClose path, closing), by simp [Node.tags], rfl⟩⟩

theorem Node.span_of_tagsAll {nodes : List Node} {span : Span}
    (h : span ∈ nodes.filterMap Node.span?) :
    (∃ a ∈ tagsAll nodes, span.start = a.2.start) ∧ ∃ b ∈ tagsAll nodes, span.stop = b.2.stop := by
  induction nodes with
  | nil => cases h
  | cons node nodes ih =>
    rw [tagsAll]
    obtain ⟨node', hnode', hspan⟩ := List.mem_filterMap.1 h
    rcases List.mem_cons.1 hnode' with rfl | hmem
    · obtain ⟨⟨a, ha, hstart⟩, b, hb, hstop⟩ := Node.span_of_tags hspan
      exact ⟨⟨a, List.mem_append_left _ ha, hstart⟩, b, List.mem_append_left _ hb, hstop⟩
    · obtain ⟨⟨a, ha, hstart⟩, b, hb, hstop⟩ := ih (List.mem_filterMap.2 ⟨node', hmem, hspan⟩)
      exact ⟨⟨a, List.mem_append_right _ ha, hstart⟩, b, List.mem_append_right _ hb, hstop⟩

theorem Node.span_nonempty {node : Node} {span : Span} (h : node.span? = some span)
    (htags : InOrder (node.tags.map (·.2))) : span.start.offset < span.stop.offset := by
  cases node with
  | text => cases h
  | interpolation | partialTag | comment =>
    cases h
    exact htags.nonempty _ (List.mem_singleton_self _)
  | block path inverted children raw delimiters opening closing =>
    cases h
    rw [Node.tags, List.map_cons] at htags
    have hopening := htags.nonempty opening List.mem_cons_self
    have hclosing := htags.nonempty closing (by simp)
    have hbetween : opening.stop.offset ≤ closing.start.offset :=
      (List.pairwise_cons.1 htags.pairwise).1 closing (by simp)
    show opening.start.offset < closing.stop.offset
    omega

theorem InOrder.siblings {nodes : List Node} (h : InOrder ((tagsAll nodes).map (·.2))) :
    InOrder (nodes.filterMap Node.span?) := by
  induction nodes with
  | nil => exact ⟨by simp, .nil⟩
  | cons node nodes ih =>
    rw [tagsAll, List.map_append] at h
    have hnode : InOrder (node.tags.map (·.2)) := h.sublist (List.sublist_append_left ..)
    have hnodes := ih (h.sublist (List.sublist_append_right ..))
    have hbetween := (List.pairwise_append.1 h.pairwise).2.2
    cases hspan : node.span? with
    | none => rwa [List.filterMap_cons_none hspan]
    | some span =>
      rw [List.filterMap_cons_some hspan]
      obtain ⟨-, a, ha, hstop⟩ := Node.span_of_tags hspan
      refine ⟨List.forall_mem_cons.2 ⟨Node.span_nonempty hspan hnode, hnodes.nonempty⟩,
        .cons (fun span' hspan' => ?_) hnodes.pairwise⟩
      obtain ⟨⟨b, hb, hstart⟩, -⟩ := Node.span_of_tagsAll hspan'
      rw [hstop, hstart]
      exact hbetween _ (List.mem_map_of_mem ha) _ (List.mem_map_of_mem hb)

def Section.tags (s : Section) : List (Token × Span) :=
  (.opening s.path s.inverted, s.opening) :: (tagsAll s.children ++
    [(.sectionClose s.path, s.closing)])

theorem Section.tags_infix {s : Section} {nodes : List Node} (h : s ∈ sectionsAll nodes) :
    s.tags <:+: tagsAll nodes := by
  induction nodes using Node.forestInduction with
  | nil => cases h
  | block path inverted children raw delimiters opening closing nodes ihc ih =>
    rw [sectionsAll, sections, List.cons_append, List.mem_cons, List.mem_append] at h
    rw [tagsAll, Node.tags]
    rcases h with rfl | h | h
    · exact List.infix_append' [] _ _
    · obtain ⟨before, after, heq⟩ := ihc h
      refine ⟨(.opening path inverted, opening) :: before,
        after ++ ((.sectionClose path, closing) :: tagsAll nodes), ?_⟩
      simp only [← heq, List.cons_append, List.append_assoc, List.nil_append]
    · exact (ih h).trans (List.suffix_append _ _).isInfix
  | _ =>
    rename_i ih
    exact (ih h).trans (List.suffix_append _ _).isInfix

theorem InOrder.inside {s : Section} (h : InOrder (s.tags.map (·.2))) :
    InOrder (s.opening :: (s.children.filterMap Node.span? ++ [s.closing])) := by
  rw [Section.tags, List.map_cons, List.map_append] at h
  have hchildren : InOrder ((tagsAll s.children).map (·.2)) :=
    h.sublist ((List.sublist_append_left ..).cons _)
  have hsiblings := hchildren.siblings
  obtain ⟨hafter, hpairwise⟩ := List.pairwise_cons.1 h.pairwise
  have hbefore := (List.pairwise_append.1 hpairwise).2.2
  constructor
  · intro span hspan
    rcases List.mem_cons.1 hspan with rfl | hspan
    · exact h.nonempty _ List.mem_cons_self
    · rcases List.mem_append.1 hspan with hspan | hspan
      · exact hsiblings.nonempty span hspan
      · obtain rfl := List.mem_singleton.1 hspan
        exact h.nonempty _ (by simp)
  · refine .cons (fun span hspan => ?_)
      (List.pairwise_append.2 ⟨hsiblings.pairwise, List.pairwise_singleton _ _, ?_⟩)
    · rcases List.mem_append.1 hspan with hspan | hspan
      · obtain ⟨⟨a, ha, hstart⟩, -⟩ := Node.span_of_tagsAll hspan
        rw [hstart]
        exact hafter _ (List.mem_append_left _ (List.mem_map_of_mem ha))
      · obtain rfl := List.mem_singleton.1 hspan
        exact hafter _ (by simp)
    · intro span hspan closing hclosing
      obtain rfl := List.mem_singleton.1 hclosing
      obtain ⟨-, b, hb, hstop⟩ := Node.span_of_tagsAll hspan
      rw [hstop]
      exact hbefore _ (List.mem_map_of_mem hb) _ (by simp)

/-! ## Nesting tag by tag -/

section Nesting

variable {source : List Char} {d : Delimiters} {done : List SpannedToken} {n n' : Nesting}
  {tag : SpannedToken}

/-- The tags of the sections that are open, and of what stands before them. -/
def outerTags : List OpenSection → List (Token × Span)
  | [] => []
  | o :: outer =>
    outerTags outer ++ (tagsAll o.earlier.reverse ++ [(.opening o.path o.inverted, o.opening)])

def Nesting.tags (n : Nesting) : List (Token × Span) :=
  outerTags n.outer ++ tagsAll n.nodes.reverse

def Nesting.closed (n : Nesting) : List Section :=
  sectionsAll n.nodes ++ n.outer.flatMap fun o => sectionsAll o.earlier

/-- One of the tags opens such a section, with the pair in force that the section keeps. -/
def OpenedIn (d : Delimiters) (tags : List SpannedToken) (path : String) (inverted : Bool)
    (opening : Span) (delimiters : Delimiters) : Prop :=
  ∃ before tag after, tags = before ++ tag :: after ∧ tag.token = .opening path inverted ∧
    tag.span = opening ∧ delimiters = inForceBehind d before

theorem OpenedIn.append {tags : List SpannedToken} {path : String} {inverted : Bool}
    {opening : Span} {delimiters : Delimiters}
    (h : OpenedIn d tags path inverted opening delimiters) (more : List SpannedToken) :
    OpenedIn d (tags ++ more) path inverted opening delimiters := by
  obtain ⟨before, tag, after, rfl, htoken, hspan, hdelimiters⟩ := h
  exact ⟨before, tag, after ++ more, by simp, htoken, hspan, hdelimiters⟩

/-- What a closed section keeps, as it is taken from the tags and the source. -/
structure Section.Kept (source : List Char) (d : Delimiters) (tags : List SpannedToken)
    (s : Section) : Prop where
  openedIn : OpenedIn d tags s.path s.inverted s.opening s.delimiters
  raw : s.raw = String.ofList (Text.slice source s.opening.stop.offset s.closing.start.offset)

/-- The nesting holds the tags so far. -/
structure Tracks (source : List Char) (d : Delimiters) (done : List SpannedToken) (n : Nesting) :
    Prop where
  inForce : n.inForce = inForceBehind d done
  tags : n.tags = keptTags done
  openedIn : ∀ o ∈ n.outer, OpenedIn d done o.path o.inverted o.opening o.delimiters
  closed : ∀ s ∈ n.closed, s.Kept source d done

theorem tracks_initial (source : List Char) (d : Delimiters) : Tracks source d [] (.initial d) :=
  ⟨rfl, rfl, by simp [Nesting.initial], by simp [Nesting.closed, Nesting.initial, sectionsAll]⟩

theorem Tracks.literal (h : Tracks source d done n) (item : Scanned) :
    Tracks source d done (n.literal item) := by
  rw [Nesting.literal, Nesting.pushText_eq, textNodes]
  split
  · exact ⟨h.inForce, h.tags, h.openedIn, h.closed⟩
  · refine ⟨h.inForce, ?_, h.openedIn, h.closed⟩
    rw [← h.tags]
    simp only [Nesting.tags, List.singleton_append, tagsAll_reverse_cons, Node.tags,
      List.append_nil]

theorem Tracks.openedIn_append (h : Tracks source d done n) (more : List SpannedToken) :
    ∀ o ∈ n.outer, OpenedIn d (done ++ more) o.path o.inverted o.opening o.delimiters :=
  fun o ho => (h.openedIn o ho).append more

theorem Tracks.closed_append (h : Tracks source d done n) (more : List SpannedToken) :
    ∀ s ∈ n.closed, s.Kept source d (done ++ more) :=
  fun s hs => ⟨(h.closed s hs).openedIn.append more, (h.closed s hs).raw⟩

theorem inForceBehind_concat (d : Delimiters) (tags : List SpannedToken) (tag : SpannedToken) :
    inForceBehind d (tags ++ [tag]) = tag.token.inForce (inForceBehind d tags) :=
  inForceBehind_append d tags [tag]

theorem Tracks.push (h : Tracks source d done n) {node : Node}
    (hnode : node.tags = [(tag.token, tag.span)]) (hsections : node.sections = [])
    (hchange : tag.token.isChange = false) (hinForce : ∀ d, tag.token.inForce d = d) :
    Tracks source d (done ++ [tag]) (n.push node) where
  inForce := by
    rw [inForceBehind_concat, hinForce]
    exact h.inForce
  tags := by
    rw [keptTags_append, keptTags_singleton hchange, ← h.tags, ← hnode]
    simp only [Nesting.tags, Nesting.push, tagsAll_reverse_cons, List.append_assoc]
  openedIn := h.openedIn_append [tag]
  closed := by
    intro s hs
    refine h.closed_append [tag] s ?_
    simpa only [Nesting.closed, Nesting.push, sectionsAll, hsections, List.nil_append] using hs

theorem Tracks.openSection (h : Tracks source d done n) {path : String} {inverted : Bool}
    (htoken : tag.token = .opening path inverted) :
    Tracks source d (done ++ [tag]) (n.openSection path inverted tag.span) where
  inForce := by
    rw [inForceBehind_concat, htoken]
    cases inverted <;> exact h.inForce
  tags := by
    have hchange : tag.token.isChange = false := by
      rw [htoken]
      cases inverted <;> rfl
    rw [keptTags_append, keptTags_singleton hchange, ← h.tags, htoken]
    simp only [Nesting.tags, Nesting.openSection, outerTags, tagsAll, List.reverse_nil,
      List.append_nil, List.append_assoc]
  openedIn := by
    intro o ho
    rcases List.mem_cons.1 ho with rfl | ho
    · exact ⟨done, tag, [], rfl, htoken, rfl, h.inForce⟩
    · exact h.openedIn_append [tag] o ho
  closed := by
    intro s hs
    refine h.closed_append [tag] s ?_
    simpa only [Nesting.closed, Nesting.openSection, sectionsAll, List.flatMap_cons,
      List.nil_append] using hs

theorem Tracks.closeSection (h : Tracks source d done n) {name : String}
    (htoken : tag.token = .sectionClose name)
    (hclose : n.closeSection source name tag.span = .ok n') :
    Tracks source d (done ++ [tag]) n' := by
  obtain ⟨o, outer, houter, hpath, rfl⟩ := Nesting.of_closeSection hclose
  constructor
  · rw [inForceBehind_concat, htoken]
    exact h.inForce
  · rw [keptTags_append, keptTags_singleton (by rw [htoken]; rfl), ← h.tags, htoken, ← hpath]
    simp only [Nesting.tags, houter, outerTags, tagsAll_reverse_cons, Node.tags,
      List.append_assoc, List.cons_append, List.nil_append]
  · intro o' ho'
    exact h.openedIn_append [tag] o' (houter ▸ List.mem_cons_of_mem o ho')
  · intro s hs
    simp only [Nesting.closed, sectionsAll, sections, List.cons_append, List.mem_cons,
      List.mem_append, mem_sectionsAll_reverse] at hs
    rcases hs with rfl | (hs | hs) | hs
    · refine ⟨?_, rfl⟩
      rw [← hpath]
      exact h.openedIn_append [tag] o (houter ▸ List.mem_cons_self)
    · exact h.closed_append [tag] s (List.mem_append_left _ hs)
    · refine h.closed_append [tag] s (List.mem_append_right _ ?_)
      rw [houter, List.flatMap_cons]
      exact List.mem_append_left _ hs
    · refine h.closed_append [tag] s (List.mem_append_right _ ?_)
      rw [houter, List.flatMap_cons]
      exact List.mem_append_right _ hs

theorem Tracks.addTag (h : Tracks source d done n) (htag : tag.token.IsTag)
    (hadd : n.addTag source tag = .ok n') : Tracks source d (done ++ [tag]) n' := by
  obtain ⟨token, span, standalone⟩ := tag
  cases token with
  | text => cases htag
  | interpolation | partialTag | comment =>
    cases hadd
    exact h.push rfl rfl rfl fun _ => rfl
  | sectionOpen path =>
    cases hadd
    exact h.openSection rfl
  | invertedOpen path =>
    cases hadd
    exact h.openSection rfl
  | sectionClose name => exact h.closeSection rfl hadd
  | delimiterChange d' =>
    cases hadd
    refine ⟨?_, ?_, h.openedIn_append _, h.closed_append _⟩
    · rw [inForceBehind_concat]
      rfl
    · rw [keptTags_append, keptTags_change rfl, List.append_nil]
      exact h.tags

theorem Tracks.addAll {items : List Scanned} (h : Tracks source d done n)
    (htags : ∀ tag ∈ Scanned.tags items, tag.token.IsTag) (hadd : n.addAll source items = .ok n') :
    Tracks source d (done ++ Scanned.tags items) n' := by
  induction items generalizing n done with
  | nil =>
    cases hadd
    rwa [Scanned.tags_nil, List.append_nil]
  | cons item items ih =>
    have hliteral := h.literal item
    rw [Nesting.addAll, Nesting.add_eq] at hadd
    obtain ⟨literal, span, _ | tag⟩ := item
    · exact ih hliteral htags hadd
    · rw [Scanned.tags_some, List.forall_mem_cons] at htags
      rw [Scanned.tags_some, List.append_cons]
      split at hadd
      · cases hadd
      · rename_i n₁ hadd₁
        exact ih (hliteral.addTag htags.1 hadd₁) htags.2 hadd

end Nesting

/-! ## Trees -/

/-- A section as the source has it, the tags of the source being given. -/
structure Section.Faithful (source : List Char) (d : Delimiters) (tags : List SpannedToken)
    (s : Section) : Prop where
  /-- The tags of the section, and between them what is inside it, one after the other. -/
  inside : InOrder (s.opening :: (s.children.filterMap Node.span? ++ [s.closing]))
  /-- The text between the tags. -/
  raw : ∃ before after, source = before ++ (s.raw.toList ++ after) ∧
    s.opening.stop = .behind before ∧ s.closing.start = .behind (before ++ s.raw.toList)
  openedIn : OpenedIn d tags s.path s.inverted s.opening s.delimiters
  usable : s.delimiters.Usable

theorem Section.Kept.faithful {source : List Char} {d : Delimiters} {tags : List SpannedToken}
    {s : Section} (h : s.Kept source d tags) (hd : d.Usable)
    (hisTag : ∀ tag ∈ tags, tag.token.IsTag) (hstands : ∀ tag ∈ tags, tag.span.Stands source)
    (hclosing : ∃ tag ∈ tags, tag.span = s.closing) (horder : InOrder (s.tags.map (·.2))) :
    s.Faithful source d tags := by
  obtain ⟨before, opening, after, htags, -, hopening, hdelimiters⟩ := h.openedIn
  obtain ⟨closing, hclosingMem, hclosing⟩ := hclosing
  have hopeningStands : s.opening.Stands source :=
    hopening ▸ hstands opening (htags ▸ List.mem_append_right _ List.mem_cons_self)
  have hclosingStands : s.closing.Stands source := hclosing ▸ hstands closing hclosingMem
  refine ⟨horder.inside, ?_, h.openedIn, ?_⟩
  · have hbetween : s.opening.stop.offset ≤ s.closing.start.offset :=
      (List.pairwise_cons.1 horder.inside.pairwise).1 s.closing (by simp)
    rw [h.raw, String.toList_ofList]
    exact slice_between hopeningStands hclosingStands hbetween
  · rw [hdelimiters]
    exact inForceBehind_usable hd fun tag htag =>
      hisTag tag (htags ▸ List.mem_append_left _ htag)

theorem usable_of_parse {source : List Char} {d : Delimiters} {tree : Tree}
    (h : Tree.parse source d = .ok tree) : ∃ pair : UsableDelimiters, pair.val = d := by
  rw [Tree.parse, Scanner.ofSource] at h
  cases hcheck : d.check with
  | error fault =>
    rw [hcheck] at h
    cases h
  | ok pair => exact ⟨pair, (Delimiters.check_eq_ok_iff.1 hcheck).symm⟩

/-- What `parse` nests: `Tracks` at the end of the source, with no section open. -/
theorem parse_tracks {source : List Char} {pair : UsableDelimiters} {tree : Tree}
    (h : Tree.parse source pair.val = .ok tree) :
    ∃ items, Scans [] pair source items none ∧ tagsAll tree = keptTags (Scanned.tags items) ∧
      ∀ s ∈ sectionsAll tree, s.Kept source pair.val (Scanned.tags items) := by
  obtain ⟨items, n, hscans, hadd, houter, rfl⟩ := nested_of_parse h
  have htracks := (tracks_initial source pair.val).addAll hscans.isTag hadd
  rw [List.nil_append] at htracks
  refine ⟨items, hscans, ?_, fun s hs => htracks.closed s ?_⟩
  · rw [← htracks.tags, Nesting.tags, houter]
    rfl
  · rw [Nesting.closed, houter]
    exact List.mem_append_left _ (mem_sectionsAll_reverse.1 hs)

/-- The tree of a template has the tags of its source, in their order and with their spans, and
its sections are as the source has them. -/
theorem parse_faithful {source : List Char} {d : Delimiters} {tree : Tree}
    (h : Tree.parse source d = .ok tree) :
    ∃ scanner items, Scanner.ofSource source d = .ok scanner ∧ scanner.items = (items, none) ∧
      tagsAll tree = keptTags (Scanned.tags items) ∧
      InOrder (tree.filterMap Node.span?) ∧
      ∀ s ∈ sectionsAll tree, s.Faithful source d (Scanned.tags items) := by
  obtain ⟨pair, rfl⟩ := usable_of_parse h
  obtain ⟨items, hscans, htags, hkept⟩ := parse_tracks h
  have horder : InOrder ((tagsAll tree).map (·.2)) := by
    rw [htags]
    exact hscans.inOrder.sublist (keptTags_sublist _)
  refine ⟨.ofUsable source pair, items, Scanner.ofSource_val source pair, ?_, htags,
    horder.siblings, fun s hs => ?_⟩
  · rw [Scanner.ofUsable_eq_behind]
    exact hscans.items_eq
  · have hpart := Section.tags_infix hs
    have hclosing : (Token.sectionClose s.path, s.closing) ∈ s.tags := by simp [Section.tags]
    refine (hkept s hs).faithful pair.property hscans.isTag
      (fun tag htag => (hscans.stands tag htag).1) ?_ (horder.sublist (hpart.sublist.map _))
    exact mem_keptTags (htags ▸ hpart.subset hclosing)

/-- A section within another one, behind a change of delimiters. -/
theorem parse_faithful_nested :
    let source := "\x7b\x7b#a\x7d\x7d\x7b\x7b=<% %>=\x7d\x7d<%^b%>x<%/b%>;<%/a%>".toList
    ∃ tree scanner items, Tree.parse source .standard = .ok tree ∧
      Scanner.ofSource source .standard = .ok scanner ∧ scanner.items = (items, none) ∧
      (tagsAll tree = keptTags (Scanned.tags items) ∧ InOrder (tree.filterMap Node.span?) ∧
        ∀ s ∈ sectionsAll tree, s.Faithful source .standard (Scanned.tags items)) ∧
      (sectionsAll tree).map (fun s => (s.path, s.raw, s.delimiters)) =
        [("a", "\x7b\x7b=<% %>=\x7d\x7d<%^b%>x<%/b%>;", .standard), ("b", "x", ⟨"<%", "%>"⟩)] := by
  intro source
  have hsections : (Tree.parse source .standard).toOption.map (fun tree =>
      (sectionsAll tree).map fun s => (s.path, s.raw, s.delimiters)) =
        some [("a", "\x7b\x7b=<% %>=\x7d\x7d<%^b%>x<%/b%>;", .standard),
          ("b", "x", ⟨"<%", "%>"⟩)] := by decide +kernel
  cases hparse : Tree.parse source .standard with
  | error e =>
    rw [hparse] at hsections
    cases hsections
  | ok tree =>
    rw [hparse] at hsections
    obtain ⟨scanner, items, hscanner, hitems, h⟩ := parse_faithful hparse
    exact ⟨tree, scanner, items, rfl, hscanner, hitems, h, Option.some.inj hsections⟩

end Mustache
