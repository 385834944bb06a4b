import Mustache.CommandLine
import Mustache.Proofs.Tree.Encoding

/-!
# Mustache.Proofs.CommandLine.Trees

Printed trees are of further use.

The command prints the tree of each file, one after the other (`printTrees_eq`). The tree of one
file, read again, compiles to what the file compiles to (`Tree.reloads`).
-/

namespace Mustache

open Node

namespace CommandLine

/-- The file is there, and its text has that tree. -/
def HasTree (engine : Engine) (files : Files) (file : String) (tree : Tree) : Prop :=
  ∃ source, files.readText ⟨file⟩ = .ok source ∧ engine.tokens source = .ok tree

theorem printTrees_eq {engine : Engine} {files : Files} {sources : List String} {trees : List Tree}
    (h : List.Forall₂ (HasTree engine files) sources trees) (printed : String) :
    printTrees engine files printed sources =
      ⟨printed ++ String.join (trees.map Tree.printed), none, files⟩ := by
  induction h generalizing printed with
  | nil => rw [printTrees, List.map_nil, String.join_nil, String.append_empty]
  | cons hfirst _ ih =>
    obtain ⟨source, hread, htokens⟩ := hfirst
    rw [printTrees, hread]
    dsimp only
    rw [htokens]
    dsimp only
    rw [ih, List.map_cons, String.join_cons, Tree.printed, String.append_assoc,
      String.append_assoc, String.append_assoc]

theorem run_tokens {arguments : Arguments} {files : Files} {engine : Engine} {store : Store}
    {sources : List String} {trees : List Tree} (now : Int)
    (hengine : arguments.engine files = .ok (engine, store))
    (hcommand : arguments.command = .tokens sources)
    (h : List.Forall₂ (HasTree engine store.files) sources trees) :
    run arguments files now = ⟨String.join (trees.map Tree.printed), none, store.files⟩ := by
  unfold run
  rw [hengine]
  dsimp only
  rw [hcommand]
  dsimp only
  rw [printTrees_eq h, String.empty_append]

end CommandLine

open CommandLine

/-- Tokens are read back as they were written, on one line or on many, and so are trees of fewer
than 128 levels; a tree whose sections nest 61 deep has no more. So the tree of a file can be
printed, read again and compiled, and this gives the template of the file. -/
theorem Tree.reloads :
    (∀ token : Token, Token.ofText? (.ofList token.toJson.compact) = some token ∧
      Token.ofText? (.ofList (token.toJson.pretty 0)) = some token) ∧
    (∀ tree : Tree, Fit tree → tree.toJson.depth < 128 →
      Tree.ofText? (.ofList tree.toJson.compact) = some tree ∧
        Tree.ofText? (.ofList (tree.toJson.pretty 0)) = some tree) ∧
    (∀ tree : Tree, nestingAll tree ≤ 61 → tree.toJson.depth < 128) ∧
    ∀ (arguments : Arguments) (files : Files) (now : Int) (engine : Engine) (store : Store)
      (file source : String) (tree : Tree),
      arguments.engine files = .ok (engine, store) → arguments.command = .tokens [file] →
      store.files.readText ⟨file⟩ = .ok source → engine.tokens source = .ok tree →
      Text.byteLength source.toList + 1 < UInt64.size → tree.toJson.depth < 128 →
      ∃ reloaded, Tree.ofText? (run arguments files now).printed = some reloaded ∧
        reloaded = tree ∧ ∀ options partials,
          reloaded.compile engine.options.delimiters options partials =
            Template.ofSource source engine.options.delimiters options partials := by
  have hmax {n : Nat} (h : n < 128) : n ≤ Json.maxDepth := Nat.le_of_lt_succ h
  refine ⟨Token.ofText?_text, fun tree hfit hdepth => ?_, fun tree hnesting => ?_,
    fun arguments files now engine store file source tree hengine hcommand hread htokens hsource
      hdepth => ?_⟩
  · rw [Tree.ofText?_compact hfit, Tree.ofText?_pretty hfit, if_pos (hmax hdepth)]
    exact ⟨rfl, rfl⟩
  · have := tree.depth_toJson_le
    omega
  · have hfit : Fit tree := Tree.fit_of_parse htokens hsource
    have htrees : List.Forall₂ (HasTree engine store.files) [file] [tree] :=
      .cons ⟨source, hread, htokens⟩ .nil
    have hone : String.join ([tree].map Tree.printed) = tree.printed := by simp
    rw [run_tokens now hengine hcommand htrees, hone]
    refine ⟨tree, ?_, rfl, fun options partials => ?_⟩
    · rw [Tree.ofText?_printed hfit, if_pos (hmax hdepth)]
    · rw [Template.ofSource, show Tree.parse _ _ = .ok tree from htokens]

/-- A tree with the largest places, characters that are escaped and an inverted section, a change of
delimiters, and a file with a section. -/
theorem Tree.reloads_section :
    let token : Token := .delimiterChange ⟨"<\"", "\\>"⟩
    let place : Point := ⟨18446744073709551615, 18446744073709551615, 18446744073709551615⟩
    let tree : Tree := [.text "\u0001\u2028\n", .block "a.b" true
      [.interpolation "" false ⟨place, place⟩, .partialTag "p" "\t" ⟨place, place⟩,
        .comment "é" ⟨place, place⟩] "raw" .standard ⟨place, place⟩ ⟨place, place⟩]
    let source := "\x7b\x7b#a\x7d\x7d\n\x7b\x7b/a\x7d\x7d"
    let arguments : Arguments := ⟨.tokens ["t"], none, none, []⟩
    let files : Files := ⟨[(["t"], .file source.toUTF8 0)]⟩
    Token.ofText? (.ofList (token.toJson.pretty 0)) = some token ∧ Fit tree ∧
      Tree.ofText? (.ofList tree.toJson.compact) = some tree ∧
      ∃ reloaded, Tree.ofText? (run arguments files 0).printed = some reloaded ∧
        nestingAll reloaded = 1 ∧
        reloaded.compile .standard {} .none = Template.ofSource source .standard {} .none := by
  intro token place tree source arguments files
  obtain ⟨htokens, htrees, hnesting, hcommand⟩ := Tree.reloads
  have hplace : place.Fits := ⟨by decide, by decide, by decide⟩
  have hspan : Span.Fits ⟨place, place⟩ := ⟨hplace, hplace⟩
  have hfit : Fit tree := by simp [tree, Fit, tagsAll, Node.tags, hspan]
  have hdepth : tree.toJson.depth < 128 := hnesting tree (by decide)
  refine ⟨(htokens token).2, hfit, (htrees tree hfit hdepth).1, ?_⟩
  have hparsed : (Tree.parse source.toList .standard).toOption.map nestingAll = some 1 := by
    decide +kernel
  cases hparse : Tree.parse source.toList .standard with
  | error e =>
    rw [hparse] at hparsed
    cases hparsed
  | ok parsed =>
    rw [hparse] at hparsed
    have hone : nestingAll parsed = 1 := Option.some.inj hparsed
    obtain ⟨engine, store, hengine, hdelimiters, hread⟩ : ∃ engine store,
        arguments.engine files = .ok (engine, store) ∧
          engine.options.delimiters = .standard ∧ store.files.readText ⟨"t"⟩ = .ok source := by
      subst files arguments source
      exact ⟨_, _, rfl, rfl, rfl⟩
    have htree : engine.tokens source = .ok parsed := by rw [Engine.tokens, hdelimiters, hparse]
    obtain ⟨reloaded, hreloaded, rfl, hcompile⟩ := hcommand arguments files 0 engine store "t"
      source parsed hengine rfl hread htree (by decide) (hnesting parsed (by omega))
    rw [hdelimiters] at hcompile
    exact ⟨reloaded, hreloaded, hone, hcompile {} .none⟩

end Mustache
