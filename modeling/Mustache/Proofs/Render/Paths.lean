import Mustache.Proofs.Render.Scopes
import Mustache.Proofs.Text.Splitting

/-!
# Mustache.Proofs.Render.Paths

What a dotted path leads to.

A path is cut into keys at its dots (`KeyPath.keys_eq_iff`), and the keys of two paths with a dot
between are those of the one and then those of the other (`KeyPath.keys_dot`). Only the first key is
looked for on the stack: either all frames pass, and the globals decide, or the first frame that
yields does (`Host.search_eq_none_iff`, `Host.search_eq_some_iff`). All other keys are followed from
what was found (`Host.onward`), and following some keys and then others is following them all
(`Host.onward_append`). `Context.lookup_lexical` puts this together.

Records may keep something between two questions, so a lookup starts from what the host keeps and
ends with what it keeps then. That a frame was asked in vain shows there and nowhere else.
-/

namespace Mustache

variable {η : Type}

/-! ## Keys -/

namespace KeyPath

def keys (s : String) : List String := (Text.split '.' s.toList).map String.ofList

theorem segments_ofString {s : String} (h : s ≠ ".") : (ofString s).segments = keys s := by
  rw [ofString, if_neg h]
  rfl

theorem toList_keys (s : String) : (keys s).map String.toList = s.toList.splitOn '.' := by
  rw [keys, List.map_map, ← Text.split_eq_splitOn]
  exact (List.map_congr_left fun _ _ => String.toList_ofList).trans (List.map_id _)

theorem keys_ne_nil (s : String) : keys s ≠ [] :=
  fun hnil => Text.split_ne_nil '.' s.toList (List.map_eq_nil_iff.1 hnil)

theorem intercalate_keys (s : String) : ".".intercalate (keys s) = s := by
  rw [← String.toList_inj, String.toList_intercalate, toList_keys]
  exact List.intercalate_splitOn '.'

/-- The keys of a text are the texts without dots that it is put together from. -/
theorem keys_eq_iff {s : String} {ks : List String} :
    keys s = ks ↔ ks ≠ [] ∧ (∀ k ∈ ks, '.' ∉ k.toList) ∧ ".".intercalate ks = s := by
  constructor
  · rintro rfl
    refine ⟨keys_ne_nil s, fun k hk => ?_, intercalate_keys s⟩
    obtain ⟨part, hpart, rfl⟩ := List.mem_map.1 hk
    rw [String.toList_ofList]
    exact Text.separator_not_mem_split '.' s.toList part hpart
  · rintro ⟨hne, hdots, rfl⟩
    have hparts : ∀ part ∈ ks.map String.toList, '.' ∉ part := by
      simpa using hdots
    have hsplit : (keys (".".intercalate ks)).map String.toList = ks.map String.toList := by
      rw [toList_keys, String.toList_intercalate]
      exact List.splitOn_intercalate '.' hparts (by simpa using hne)
    exact List.map_injective_iff.2 (fun _ _ => String.toList_inj.1) hsplit

theorem keys_dot (p q : String) : keys (p ++ "." ++ q) = keys p ++ keys q := by
  rw [keys, keys, keys, ← List.map_append, ← Text.split_append]
  simp

theorem dotted_ne_dot {p : String} (hp : p ≠ "") (q : String) : p ++ "." ++ q ≠ "." := by
  intro h
  have hlength := congrArg String.length h
  simp only [String.length_append] at hlength
  have hpos : 0 < p.length := Nat.pos_of_ne_zero (mt String.length_eq_zero_iff.1 hp)
  have hdot : ".".length = 1 := rfl
  omega

end KeyPath

/-! ## Following keys -/

namespace Host

/-- Goes on from what was found, if anything was. -/
def onward (host : Host η) (keys : List String) : Option Value × η → Option Value × η
  | (some v, s) => host.follow v keys s
  | (none, s) => (none, s)

theorem follow_cons (host : Host η) (v : Value) (key : String) (keys : List String) (s : η) :
    host.follow v (key :: keys) s = host.onward keys (host.getOrCall v key s) := by
  rw [follow]
  rcases host.getOrCall v key s with ⟨_ | w, s'⟩ <;> rfl

theorem follow_append (host : Host η) (keys keys' : List String) (v : Value) (s : η) :
    host.follow v (keys ++ keys') s = host.onward keys' (host.follow v keys s) := by
  induction keys generalizing v s with
  | nil => rfl
  | cons key keys ih =>
    rw [List.cons_append, follow_cons, follow_cons]
    rcases host.getOrCall v key s with ⟨_ | w, s'⟩
    · rfl
    · exact ih w s'

theorem onward_append (host : Host η) (keys keys' : List String) (found : Option Value × η) :
    host.onward (keys ++ keys') found = host.onward keys' (host.onward keys found) := by
  rcases found with ⟨_ | v, s⟩
  · rfl
  · exact host.follow_append keys keys' v s

/-! ## The frames in turn -/

/-- None of the frames has an answer, where they are asked one after the other. -/
inductive Passes (host : Host η) (key : String) : List Value → η → η → Prop where
  | nil (s : η) : Passes host key [] s s
  | cons {frame frames s s' s''} : host.getOrCall frame key s = (none, s') →
      Passes host key frames s' s'' → Passes host key (frame :: frames) s s''

/-- The frames before one of them have no answer, and that one has. -/
def Yields (host : Host η) (key : String) (frames : List Value) (s : η) (v : Value) (s' : η) :
    Prop :=
  ∃ inner frame outer between, frames = inner ++ frame :: outer ∧
    host.Passes key inner s between ∧ host.getOrCall frame key between = (some v, s')

variable {host : Host η} {key : String} {frames : List Value} {s s' : η} {v : Value}

theorem search_eq_none_iff :
    host.search key frames s = (none, s') ↔ host.Passes key frames s s' := by
  constructor
  · intro h
    induction frames generalizing s with
    | nil =>
      cases h
      exact .nil _
    | cons frame frames ih =>
      rw [search] at h
      rcases hframe : host.getOrCall frame key s with ⟨_ | v, between⟩ <;> rw [hframe] at h
      · exact .cons hframe (ih h)
      · cases h
  · intro h
    induction h with
    | nil s => rfl
    | cons hframe _ ih =>
      rw [search, hframe]
      exact ih

theorem search_eq_some_iff :
    host.search key frames s = (some v, s') ↔ host.Yields key frames s v s' := by
  constructor
  · intro h
    induction frames generalizing s with
    | nil => cases h
    | cons frame frames ih =>
      rw [search] at h
      rcases hframe : host.getOrCall frame key s with ⟨_ | w, between⟩ <;> rw [hframe] at h
      · obtain ⟨inner, found, outer, last, rfl, hinner, hfound⟩ := ih h
        exact ⟨frame :: inner, found, outer, last, rfl, .cons hframe hinner, hfound⟩
      · cases h
        exact ⟨[], frame, frames, s, rfl, .nil s, hframe⟩
  · rintro ⟨inner, frame, outer, between, rfl, hinner, hframe⟩
    induction hinner with
    | nil => rw [List.nil_append, search, hframe]
    | cons hpassed _ ih =>
      rw [List.cons_append, search, hpassed]
      exact ih hframe

theorem passes_or_yields (host : Host η) (key : String) (frames : List Value) (s : η) :
    (∃ s', host.Passes key frames s s') ∨ ∃ v s', host.Yields key frames s v s' := by
  rcases h : host.search key frames s with ⟨_ | v, s'⟩
  · exact .inl ⟨s', search_eq_none_iff.1 h⟩
  · exact .inr ⟨v, s', search_eq_some_iff.1 h⟩

theorem SteadyRecords.getOrCall (hrecords : host.SteadyRecords) (v : Value) (key : String)
    (s s' : η) : (host.getOrCall v key s).1 = (host.getOrCall v key s').1 :=
  (hrecords.likeItself.getOrCall key rfl trivial).eq

/-- Where the answers of records do not depend on what was asked before, it does not matter in which
order the frames are asked. -/
theorem SteadyRecords.exists_passes_iff (hrecords : host.SteadyRecords) :
    (∃ s', host.Passes key frames s s') ↔
      ∀ frame ∈ frames, (host.getOrCall frame key s).1 = none := by
  constructor
  · rintro ⟨s', h⟩
    induction h with
    | nil s => simp
    | cons hframe _ ih =>
      refine List.forall_mem_cons.2 ⟨by rw [hframe], fun frame hmem => ?_⟩
      exact (hrecords.getOrCall frame key _ _).trans (ih frame hmem)
  · intro h
    induction frames generalizing s with
    | nil => exact ⟨s, .nil s⟩
    | cons frame frames ih =>
      obtain ⟨hframe, hframes⟩ := List.forall_mem_cons.1 h
      obtain ⟨s', hpasses⟩ := ih (s := (host.getOrCall frame key s).2) fun frame hmem =>
        (hrecords.getOrCall frame key _ _).trans (hframes frame hmem)
      exact ⟨s', .cons (Prod.ext hframe rfl) hpasses⟩

end Host

/-! ## Lookups -/

/-- The map with the value at the end of the keys and nothing else in it. -/
def Value.nested (keys : List String) (v : Value) : Value :=
  keys.foldr (fun key inner => .map [(key, inner)]) v

theorem Host.follow_nested (host : Host η) (keys : List String) (v : Value) (s : η) :
    host.follow (.nested keys v) keys s = (some v, s) := by
  induction keys with
  | nil => rfl
  | cons key keys ih =>
    have hkey : host.getOrCall (.nested (key :: keys) v) key s = (some (.nested keys v), s) := by
      simp [Value.nested, getOrCall, get, Fields.get?]
    rw [follow_cons, hkey]
    exact ih

namespace Context

variable {host : Host η} {c : Context} {first : String} {rest : List String} {s s' : η} {v : Value}

def find (c : Context) (host : Host η) (key : String) (s : η) : Option Value × η :=
  match host.search key c.frames s with
  | (some v, s') => (some v, s')
  | (none, s') => (c.globals.get? key, s')

theorem lookup_eq_onward {path : KeyPath} (h : path.segments = first :: rest) :
    c.lookup host path s = host.onward rest (c.find host first s) := by
  rw [lookup, h, find]
  dsimp only
  rcases host.search first c.frames s with ⟨_ | v, s'⟩
  · dsimp only
    cases c.globals.get? first <;> rfl
  · rfl

theorem find_push_of_none {frame : Value} (h : host.getOrCall frame first s = (none, s')) :
    (c.push frame).find host first s = c.find host first s' := by
  rw [find, push, Host.search, h]
  rfl

theorem find_push_of_some {frame : Value} (h : host.getOrCall frame first s = (some v, s')) :
    (c.push frame).find host first s = (some v, s') := by
  rw [find, push, Host.search, h]

theorem find_of_passes (h : host.Passes first c.frames s s') :
    c.find host first s = (c.globals.get? first, s') := by
  rw [find, Host.search_eq_none_iff.2 h]

theorem find_of_yields (h : host.Yields first c.frames s v s') :
    c.find host first s = (some v, s') := by
  rw [find, Host.search_eq_some_iff.2 h]

/-- It can be told from what the path leads to which value is set under the key. -/
def Shows (c : Context) (host : Host η) (path : KeyPath) (key : String) (s : η) : Prop :=
  ∃ v w, ((c.set key v).lookup host path s).1 ≠ ((c.set key w).lookup host path s).1

/-- A global is seen under the first key only, and there if no frame has anything under it. -/
theorem shows_iff {path : KeyPath} (hpath : path.segments = first :: rest) (key : String) :
    c.Shows host path key s ↔ key = first ∧ ∃ s', host.Passes first c.frames s s' := by
  have hset (value : Value) : (c.set key value).lookup host path s =
      host.onward rest ((c.set key value).find host first s) := lookup_eq_onward hpath
  rw [Shows]
  simp only [hset]
  rcases host.passes_or_yields first c.frames s with ⟨s', hpasses⟩ | ⟨u, s', hyields⟩
  · have hglobal (value : Value) : (c.set key value).find host first s =
        (if key = first then some value else c.globals.get? first, s') := by
      rw [find_of_passes (c := c.set key value) hpasses, set, Fields.get?_insert]
    simp only [hglobal]
    constructor
    · rintro ⟨v, w, hdiffers⟩
      refine ⟨Decidable.byContradiction fun hkey => ?_, s', hpasses⟩
      simp only [if_neg hkey, ne_eq, not_true_eq_false] at hdiffers
    · rintro ⟨rfl, -⟩
      -- The rest of the path has to lead somewhere in both values, and to different ends.
      refine ⟨.nested rest .null, .nested rest (.bool true), ?_⟩
      rw [if_pos rfl, if_pos rfl, Host.onward, Host.onward, Host.follow_nested, Host.follow_nested]
      nofun
  · have hframe (value : Value) : (c.set key value).find host first s = (some u, s') :=
      find_of_yields (c := c.set key value) hyields
    simp only [hframe, ne_eq, not_true_eq_false, exists_false, false_iff, not_and]
    rintro - ⟨last, hpasses⟩
    have hnone := Host.search_eq_none_iff.2 hpasses
    rw [Host.search_eq_some_iff.2 hyields] at hnone
    cases hnone

end Context

/-- What a path other than the dot leads to. A frame without anything under the first key changes
nothing but what the records keep. One that has something there decides, whatever is below it, also
where the other keys cannot be followed from it. A global is seen where no frame decides, and only
there. A longer path leads to what is found by going on from where the shorter one leads. -/
theorem Context.lookup_lexical (host : Host η) (c : Context) {p : String} (hp : p ≠ ".") (s : η) :
    ∃ first rest, KeyPath.keys p = first :: rest ∧
      (∀ frame s', host.getOrCall frame first s = (none, s') →
        (c.push frame).lookup host (.ofString p) s = c.lookup host (.ofString p) s' ∧
          (host.SteadyRecords → ((c.push frame).lookup host (.ofString p) s).1 =
            (c.lookup host (.ofString p) s).1)) ∧
      (∀ frame v s', host.getOrCall frame first s = (some v, s') →
        (c.push frame).lookup host (.ofString p) s = host.follow v rest s' ∧
          ∀ inner key outer w s₁ s₂, rest = inner ++ key :: outer →
            host.follow v inner s' = (some w, s₁) → host.getOrCall w key s₁ = (none, s₂) →
            (c.push frame).lookup host (.ofString p) s = (none, s₂)) ∧
      (∀ s', host.Passes first c.frames s s' →
        c.lookup host (.ofString p) s = host.onward rest (c.globals.get? first, s')) ∧
      (∀ v s', host.Yields first c.frames s v s' →
        c.lookup host (.ofString p) s = host.follow v rest s') ∧
      (∀ key, c.Shows host (.ofString p) key s ↔
        key = first ∧ ∃ s', host.Passes first c.frames s s') ∧
      (host.SteadyRecords → ((∃ s', host.Passes first c.frames s s') ↔
        ∀ frame ∈ c.frames, (host.getOrCall frame first s).1 = none)) ∧
      (p ≠ "" → ∀ q, c.lookup host (.ofString (p ++ "." ++ q)) s =
        host.onward (KeyPath.keys q) (c.lookup host (.ofString p) s)) := by
  obtain ⟨first, rest, hkeys⟩ := List.exists_cons_of_ne_nil (KeyPath.keys_ne_nil p)
  have hpath : (KeyPath.ofString p).segments = first :: rest :=
    (KeyPath.segments_ofString hp).trans hkeys
  have hlookup (c : Context) (s : η) :
      c.lookup host (.ofString p) s = host.onward rest (c.find host first s) :=
    lookup_eq_onward hpath
  refine ⟨first, rest, hkeys, fun frame s' hframe => ?_, fun frame v s' hframe => ?_,
    fun s' hpasses => ?_, fun v s' hyields => ?_, shows_iff hpath,
    fun hrecords => hrecords.exists_passes_iff, fun hne q => ?_⟩
  · have hpush : (c.push frame).lookup host (.ofString p) s = c.lookup host (.ofString p) s' := by
      rw [hlookup, hlookup, find_push_of_none hframe]
    refine ⟨hpush, fun hrecords => ?_⟩
    rw [hpush]
    exact hrecords.lookup (.of_eq rfl rfl) _ s' s
  · have hpush : (c.push frame).lookup host (.ofString p) s = host.follow v rest s' := by
      rw [hlookup, find_push_of_some hframe, Host.onward]
    refine ⟨hpush, fun inner key outer w s₁ s₂ hrest hinner hkey => ?_⟩
    rw [hpush, hrest, Host.follow_append, hinner, Host.onward, Host.follow_cons, hkey, Host.onward]
  · rw [hlookup, find_of_passes hpasses]
  · rw [hlookup, find_of_yields hyields, Host.onward]
  · have hlonger : (KeyPath.ofString (p ++ "." ++ q)).segments =
        first :: (rest ++ KeyPath.keys q) := by
      rw [KeyPath.segments_ofString (KeyPath.dotted_ne_dot hne q), KeyPath.keys_dot, hkeys,
        List.cons_append]
    rw [lookup_eq_onward hlonger, hlookup, Host.onward_append]

/-- Pushed onto a map are a record that counts what it is asked, and a map with null in the way. -/
theorem Context.lookup_lexical_record :
    let host : Host Nat := { call := fun _ text n => (.text text, n)
                             field := fun _ _ n => (none, n + 1)
                             method := fun _ _ n => (none, n + 1) }
    let c := Context.ofValue (.map [("a", .map [("", .list [.integer 5, .integer 7])])])
    (c.push (.record ⟨0⟩)).lookup host (.ofString "a.") 0 = c.lookup host (.ofString "a.") 2 ∧
      (c.push (.map [("a", .null)])).lookup host (.ofString "a.") 0 = (none, 0) ∧
      ¬ c.Shows host (.ofString "a.") "a" 0 ∧
      c.pop.Shows host (.ofString "a.") "a" 0 ∧
      (c.push (.record ⟨0⟩)).lookup host (.ofString "a..1") 0 = (some (.integer 7), 2) := by
  intro host c
  have hp : "a." ≠ "." := by decide
  have hkeys : KeyPath.keys "a." = ["a", ""] := by decide
  obtain ⟨first, rest, hfirst, hnone, hsome, -, -, hshows, -⟩ := c.lookup_lexical host hp 0
  obtain ⟨rfl, rfl⟩ := List.cons_eq_cons.1 (hkeys.symm.trans hfirst)
  obtain ⟨outermost, rest', hfirst', -, -, -, -, hglobal, -⟩ := c.pop.lookup_lexical host hp 0
  obtain ⟨rfl, rfl⟩ := List.cons_eq_cons.1 (hkeys.symm.trans hfirst')
  obtain ⟨-, -, -, -, -, -, -, -, -, hlonger⟩ := (c.push (.record ⟨0⟩)).lookup_lexical host hp 0
  refine ⟨(hnone (.record ⟨0⟩) 2 rfl).1, ?_, fun h => ?_, (hglobal "a").2 ⟨rfl, 0, .nil 0⟩, ?_⟩
  · exact (hsome (.map [("a", .null)]) .null 0 rfl).2 [] "" [] .null 0 0 rfl rfl rfl
  · obtain ⟨-, -, ⟨⟩ | ⟨hframe, -⟩⟩ := (hshows "a").1 h
    cases hframe
  · exact (hlonger (by decide) "1").trans rfl

end Mustache
