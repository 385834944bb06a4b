import Mustache.Proofs.Render.Closure
import Mustache.Proofs.Template.Expansion
import Mustache.Proofs.Tree.Lines

/-!
# Mustache.Proofs.Template.Composition

Templates that are put together from lines.

A source that is cut behind a line feed compiles to the instructions for the text above followed by
those for the text below, under the delimiters that are in force at the cut; it renders to what the
two render to, one after the other, in the same context (`ofSource_append`). A change of delimiters
on a line of its own, at the beginning, therefore does what starting with those delimiters does.
-/

namespace Mustache

open Node

/-! ## Instructions one after the other -/

namespace Op

theorem append_nil (ops : List Op) : Op.append ops [] = ops := by
  induction ops with
  | nil => rfl
  | cons op ops ih =>
    rw [Op.append, ih]
    simp

theorem append_cons_of_ne_nil (op : Op) {ops : List Op} (h : ops ≠ []) (more : List Op) :
    Op.append (op :: ops) more = op :: Op.append ops more := by
  cases ops with
  | nil => exact absurd rfl h
  | cons => rw [Op.append]; simp

theorem append_ne_nil {ops : List Op} (h : ops ≠ []) (more : List Op) :
    Op.append ops more ≠ [] := by
  fun_cases Op.append ops more <;> simp_all

/-- A text meets what `more` begins with, and what `more` ends with meets `last`. -/
theorem append_text_assoc (s : String) (more last : List Op) :
    Op.append (Op.append [.text s] more) last = Op.append [.text s] (Op.append more last) := by
  cases more with
  | nil => rfl
  | cons next more =>
    cases next with
    | text t =>
      cases more with
      | nil =>
        cases last with
        | nil => rfl
        | cons op last =>
          cases op with
          | text u => simp only [Op.append, String.append_assoc]
          | _ => rfl
      | cons => rfl
    | _ => cases more <;> rfl

theorem append_assoc (ops more last : List Op) :
    Op.append (Op.append ops more) last = Op.append ops (Op.append more last) := by
  induction ops with
  | nil => rfl
  | cons op ops ih =>
    by_cases hops : ops = []
    · subst hops
      cases op with
      | text s => exact append_text_assoc s more last
      | _ => cases more <;> rfl
    · rw [append_cons_of_ne_nil op hops, append_cons_of_ne_nil op (append_ne_nil hops more), ih,
        append_cons_of_ne_nil op hops]

end Op

/-! ## Nodes one after the other -/

section Lowering

variable {onPartial : Lowering} {nodes more : List Node} {known known₁ known₂ : List Dependency}
  {ops ops' : List Op}

theorem lowerAll_append (h : lowerAll onPartial nodes known = .ok (ops, known₁))
    (hmore : lowerAll onPartial more known₁ = .ok (ops', known₂)) :
    lowerAll onPartial (nodes ++ more) known = .ok (Op.append ops ops', known₂) := by
  induction nodes generalizing known ops with
  | nil =>
    cases h
    exact hmore
  | cons node nodes ih =>
    obtain ⟨first, known', rest, hfirst, hrest, rfl⟩ := lowerAll_cons_eq_ok_iff.1 h
    rw [List.cons_append, lowerAll_cons_eq_ok_iff]
    exact ⟨first, known', _, hfirst, ih hrest, Op.append_assoc first rest ops'⟩

theorem lowerAll_under (above : List Char) (nodes : List Node) (known : List Dependency) :
    lowerAll onPartial (underAll above nodes) known = lowerAll onPartial nodes known := by
  induction nodes using Node.forestInduction generalizing known with
  | nil => rfl
  | block path inverted children raw delimiters opening closing nodes ihc ih =>
    simp only [underAll, under, lowerAll, lower, ihc, ih]
  | _ =>
    rename_i ih
    simp only [underAll, under, lowerAll, lower, ih]

/-- The instructions for nodes whose partials stay references. -/
def Lowers (nodes : List Node) (ops : List Op) : Prop :=
  ∀ known, lowerAll lowerReference nodes known = .ok (ops, known)

theorem Lowers.unique (h : Lowers nodes ops) (h' : Lowers nodes ops') : ops = ops' := by
  have heq := (h []).symm.trans (h' [])
  exact congrArg Prod.fst (Except.ok.inj heq)

theorem Lowers.append (h : Lowers nodes ops) (hmore : Lowers more ops') :
    Lowers (nodes ++ more) (Op.append ops ops') :=
  fun known => lowerAll_append (h known) (hmore known)

theorem Lowers.under (above : List Char) (h : Lowers nodes ops) :
    Lowers (underAll above nodes) ops := by
  intro known
  rw [lowerAll_under]
  exact h known

theorem exists_lowers (nodes : List Node) : ∃ ops, Lowers nodes ops := by
  have hcons {node : Node} {nodes : List Node}
      (hnode : ∃ first, ∀ known, lower lowerReference node known = .ok (first, known))
      (h : ∃ ops, Lowers nodes ops) : ∃ ops, Lowers (node :: nodes) ops := by
    obtain ⟨first, hfirst⟩ := hnode
    obtain ⟨ops, hops⟩ := h
    exact ⟨Op.append first ops, fun known =>
      lowerAll_cons_eq_ok_iff.2 ⟨first, known, ops, hfirst known, hops known, rfl⟩⟩
  induction nodes using Node.forestInduction with
  | nil => exact ⟨[], fun _ => rfl⟩
  | text s nodes ih => exact hcons ⟨_, fun _ => rfl⟩ ih
  | interpolation path escaped span nodes ih => exact hcons ⟨_, fun _ => rfl⟩ ih
  | block path inverted children raw delimiters opening closing nodes ihc ih =>
    obtain ⟨body, hbody⟩ := ihc
    exact hcons ⟨_, fun known => lower_block_eq_ok_iff.2 ⟨body, hbody known, rfl⟩⟩ ih
  | partialTag name indent span nodes ih => exact hcons ⟨_, fun _ => rfl⟩ ih
  | comment s span nodes ih => exact hcons ⟨_, fun _ => rfl⟩ ih

theorem lowers_textNodes_append {s t : List Char} (h : Lowers (textNodes s) ops)
    (h' : Lowers (textNodes t) ops') : Lowers (textNodes (s ++ t)) (Op.append ops ops') := by
  have htext (s : List Char) (hs : s ≠ []) : Lowers (textNodes s) [.text (String.ofList s)] := by
    intro known
    rw [textNodes, if_neg (by simpa using hs)]
    rfl
  by_cases hs : s = []
  · subst hs
    obtain rfl := h.unique fun _ => rfl
    exact h'
  · by_cases ht : t = []
    · subst ht
      obtain rfl := h'.unique fun _ => rfl
      rwa [Op.append_nil, List.append_nil]
    · obtain rfl := h.unique (htext s hs)
      obtain rfl := h'.unique (htext t ht)
      rw [Op.append, ← String.ofList_append]
      exact htext (s ++ t) (by simp [hs])

theorem Tree.Joins.lowers {above : List Char} {upper lower joined : Tree}
    (h : Tree.Joins above upper lower joined) (hupper : Lowers upper ops)
    (hlower : Lowers lower ops') : Lowers joined (Op.append ops ops') := by
  obtain ⟨nodes, more, s, t⟩ := h
  obtain ⟨opsNodes, hnodes⟩ := exists_lowers nodes
  obtain ⟨opsMore, hmore⟩ := exists_lowers more
  obtain ⟨opsS, hs⟩ := exists_lowers (textNodes s)
  obtain ⟨opsT, ht⟩ := exists_lowers (textNodes t)
  obtain rfl := hupper.unique (hnodes.append hs)
  obtain rfl := hlower.unique (ht.append hmore)
  have hjoined := hnodes.append ((lowers_textNodes_append hs ht).append (hmore.under above))
  simpa only [Op.append_assoc] using hjoined

end Lowering

/-! ## Templates -/

/-- Reading the source to its end, from `d` on, leaves `d'` in force. -/
def LeavesInForce (d : Delimiters) (source : List Char) (d' : Delimiters) : Prop :=
  ∃ scanner items, Scanner.ofSource source d = .ok scanner ∧ scanner.items = (items, none) ∧
    d' = inForceBehind d (Scanned.tags items)

/-- `t` is `upper` followed by `lower`: its instructions are those of the two, and it renders to
the texts of the two, which are rendered one after the other in the same context, up to the first
error. -/
structure Template.Composed (t upper lower : Template) : Prop where
  ops : t.ops = Op.append upper.ops lower.ops
  render {η σ : Type} (host : Host η) (resolver : Resolver σ) :
    t.render host resolver =
      (do
        let first ← upper.render host resolver
        let rest ← lower.render host resolver
        pure (first ++ rest))
  context {η σ : Type} (host : Host η) (resolver : Resolver σ) (scene : Scene η σ) :
    (upper.render host resolver scene).2.context = scene.context

theorem Template.composed_of_ops {t upper lower : Template}
    (hops : t.ops = Op.append upper.ops lower.ops) (hupper : upper.options = t.options)
    (hlower : lower.options = t.options) : t.Composed upper lower where
  ops := hops
  render host resolver := by
    have hlimit : 1 + maxPartialDepth + host.stack = maxPartialDepth + host.stack + 1 := by omega
    simp only [Template.render, hupper, hlower, hops, hlimit, Renderer.execute, renderAll_append]
  context host resolver := upper.render_context host resolver

section Compile

variable {options : CompilerOptions} {partials : PartialSources} {pair pair' : UsableDelimiters}
  {source above below : String} {tree : Tree} {ops : List Op}

theorem ofSource_of_lowers (hoptions : options.includePartialCode = false)
    (htree : Tree.parse source.toList pair.val = .ok tree) (hops : Lowers tree ops) :
    Template.ofSource source pair.val options partials = .ok ⟨options, ops, []⟩ := by
  simp only [Template.ofSource, htree, Tree.compile, hoptions, Bool.false_eq_true, if_false,
    hops []]

theorem LeavesInForce.scans (h : LeavesInForce pair.val source.toList pair'.val) :
    ∃ items, Scans [] pair source.toList items none ∧
      pair'.val = inForceBehind pair.val (Scanned.tags items) := by
  obtain ⟨scanner, items, hscanner, hitems, hpair⟩ := h
  rw [Scanner.ofSource_val] at hscanner
  cases hscanner
  rw [Scanner.ofUsable_eq_behind] at hitems
  exact ⟨items, items_eq_iff.1 hitems, hpair⟩

/-- The parts of a source that is cut behind a line feed are compiled by themselves. -/
theorem ofSource_continues (hoptions : options.includePartialCode = false)
    (hline : EndsLine above.toList) (htree : Tree.parse above.toList pair.val = .ok tree)
    (hpair : LeavesInForce pair.val above.toList pair'.val) (below : String) :
    ∃ upper, Template.ofSource above pair.val options partials = .ok upper ∧
      match Tree.parse below.toList pair'.val with
      | .error e => Tree.parse (above ++ below).toList pair.val = .error (e.under above.toList)
      | .ok _ => ∃ lower t, Template.ofSource below pair'.val options partials = .ok lower ∧
          Template.ofSource (above ++ below) pair.val options partials = .ok t ∧
          t.Composed upper lower := by
  obtain ⟨items, hscans, hforce⟩ := hpair.scans
  obtain ⟨opsUpper, hupper⟩ := exists_lowers tree
  refine ⟨⟨options, opsUpper, []⟩, ofSource_of_lowers hoptions htree hupper, ?_⟩
  have hcontinues := parse_append hline hscans hforce htree below.toList
  rw [← String.toList_append] at hcontinues
  generalize hbelow : Tree.parse below.toList pair'.val = parsedBelow at hcontinues
  generalize hwhole : Tree.parse (above ++ below).toList pair.val = parsedWhole at hcontinues
  cases hcontinues with
  | error e => rfl
  | @ok lower joined hjoins =>
    obtain ⟨opsLower, hlower⟩ := exists_lowers lower
    exact ⟨⟨options, opsLower, []⟩, ⟨options, Op.append opsUpper opsLower, []⟩,
      ofSource_of_lowers hoptions hbelow hlower,
      ofSource_of_lowers hoptions hwhole (hjoins.lowers hupper hlower),
      Template.composed_of_ops rfl rfl rfl⟩

/-- A source whose first line changes the delimiters compiles as what is below, read with the new
ones. -/
theorem ofSource_changeLine (hoptions : options.includePartialCode = false)
    (hline : ChangeLine pair pair' above.toList) (below : String) :
    Template.ofSource (above ++ below) pair.val options partials =
      (Template.ofSource below pair'.val options partials).mapError (·.under above.toList) := by
  obtain ⟨items, hscans, hforce, htree⟩ := hline.parse
  have hcontinues := parse_append hline.endsLine hscans hforce.symm htree below.toList
  rw [← String.toList_append] at hcontinues
  generalize hbelow : Tree.parse below.toList pair'.val = parsedBelow at hcontinues
  generalize hwhole : Tree.parse (above ++ below).toList pair.val = parsedWhole at hcontinues
  cases hcontinues with
  | error e => simp only [Template.ofSource, hbelow, hwhole, Except.mapError]
  | @ok lower joined hjoins =>
    obtain ⟨ops, hlower⟩ := exists_lowers lower
    rw [ofSource_of_lowers hoptions hbelow hlower,
      ofSource_of_lowers hoptions hwhole (hjoins.lowers (fun _ => rfl) hlower)]
    rfl

end Compile

/-- Templates compose at the ends of lines. -/
theorem ofSource_append {options : CompilerOptions} (hoptions : options.includePartialCode = false)
    (partials : PartialSources) (pair pair' : UsableDelimiters) (above below : String) :
    (∀ tree, EndsLine above.toList → Tree.parse above.toList pair.val = .ok tree →
      LeavesInForce pair.val above.toList pair'.val →
        ∃ upper, Template.ofSource above pair.val options partials = .ok upper ∧
          match Tree.parse below.toList pair'.val with
          | .error e => Tree.parse (above ++ below).toList pair.val = .error (e.under above.toList)
          | .ok _ => ∃ lower t, Template.ofSource below pair'.val options partials = .ok lower ∧
              Template.ofSource (above ++ below) pair.val options partials = .ok t ∧
              t.Composed upper lower) ∧
    (ChangeLine pair pair' above.toList →
      Template.ofSource (above ++ below) pair.val options partials =
        (Template.ofSource below pair'.val options partials).mapError (·.under above.toList)) :=
  ⟨fun _ hline htree hpair => ofSource_continues hoptions hline htree hpair below,
    fun hline => ofSource_changeLine hoptions hline below⟩

/-- The delimiters change on the last line above; below stands a section, or an error. -/
theorem ofSource_append_switch :
    let standard : UsableDelimiters := ⟨.standard, Delimiters.standard_usable⟩
    let angles : UsableDelimiters := ⟨⟨"<%", "%>"⟩, by decide⟩
    let above := "Hi \x7b\x7bx\x7d\x7d,\n\x7b\x7b=<% %>=\x7d\x7d\n"
    let line := " \x7b\x7b=<%  %> =\x7d\x7d\t\n"
    let below := "<%#s%>\n<%y%>\n<%/s%>\n"
    (∃ upper lower t, Template.ofSource above standard.val {} .none = .ok upper ∧
      Template.ofSource below angles.val {} .none = .ok lower ∧
      Template.ofSource (above ++ below) standard.val {} .none = .ok t ∧ t.Composed upper lower) ∧
    Tree.parse (above ++ "<%/z%>").toList standard.val = .error (.unmatchedClose "z" none 3 1) ∧
    Template.ofSource (line ++ below) standard.val {} .none =
      (Template.ofSource below angles.val {} .none).mapError (·.under line.toList) := by
  intro standard angles above line below
  have hline : EndsLine above.toList :=
    .inr ⟨"Hi \x7b\x7bx\x7d\x7d,\n\x7b\x7b=<% %>=\x7d\x7d".toList, by decide⟩
  obtain ⟨upperTree, hupper, -⟩ :
      ∃ tree, Tree.parse above.toList standard.val = .ok tree ∧ True :=
    exists_ok_of_check (by decide +kernel)
  obtain ⟨lowerTree, hlower, -⟩ :
      ∃ tree, Tree.parse below.toList angles.val = .ok tree ∧ True :=
    exists_ok_of_check (by decide +kernel)
  have hforce : LeavesInForce standard.val above.toList angles.val :=
    ⟨_, (Scanner.ofUsable above.toList standard).items.1, Scanner.ofSource_val _ _,
      by decide +kernel, by decide +kernel⟩
  have hchange : ChangeLine standard angles line.toList := by
    have hwritten : line.toList = [' '] ++ (standard.tag .equals
        ([] ++ (angles.opening ++ ([' ', ' '] ++ angles.closing) ++ [' '])) ++
          (['\t'] ++ ['\n'])) := by decide
    rw [hwritten]
    exact .intro (List.all_eq_true.1 (by decide)) (by decide) (by decide) (by decide) (by decide)
      (List.all_eq_true.1 (by decide))
  have hoptions : ({} : CompilerOptions).includePartialCode = false := rfl
  refine ⟨?_, ?_, (ofSource_append hoptions .none standard angles line below).2 hchange⟩
  · obtain ⟨upper, hof, hrest⟩ :=
      (ofSource_append hoptions .none standard angles above below).1 _ hline hupper hforce
    rw [hlower] at hrest
    obtain ⟨lower, t, hlowerOf, ht, hcomposed⟩ := hrest
    exact ⟨upper, lower, t, hof, hlowerOf, ht, hcomposed⟩
  · obtain ⟨_, -, hrest⟩ :=
      (ofSource_append hoptions .none standard angles above "<%/z%>").1 _ hline hupper hforce
    have hcheck : (match Tree.parse "<%/z%>".toList angles.val with
        | .error e => some e
        | .ok _ => none) = some (.unmatchedClose "z" none 1 1) := by decide +kernel
    cases hz : Tree.parse "<%/z%>".toList angles.val with
    | error e =>
      rw [hz] at hrest hcheck
      cases hcheck
      have hmoved : (Error.unmatchedClose "z" none 1 1).under above.toList =
          .unmatchedClose "z" none 3 1 := by decide
      exact hrest.trans (congrArg Except.error hmoved)
    | ok tree =>
      rw [hz] at hcheck
      cases hcheck

end Mustache
