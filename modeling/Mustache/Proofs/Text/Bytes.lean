import Mustache.Text.Search

/-!
# Mustache.Proofs.Text.Bytes

Access to a text by the bytes of its UTF-8 form.

An access can be out of place: behind the end of the text, with its two ends in the wrong order, or
between the bytes of one character. `slice?`, `from?` and `truncate?` give `none` then, and
`search?` when there is nothing to look for. Where texts are put together is a place to cut them
(`slice?_append`). A search in bytes knows nothing of characters, and finds the first occurrence of
a mark nevertheless, since no character begins inside of another one (`search?_bytes`).
-/

namespace Mustache.Text

/-! ## Bytes -/

def bytes (s : List Char) : List UInt8 := s.flatMap String.utf8EncodeChar

@[simp] theorem bytes_nil : bytes [] = [] := rfl

@[simp] theorem bytes_cons (c : Char) (s : List Char) :
    bytes (c :: s) = String.utf8EncodeChar c ++ bytes s := rfl

@[simp] theorem bytes_append (s t : List Char) : bytes (s ++ t) = bytes s ++ bytes t :=
  List.flatMap_append

@[simp] theorem length_bytes (s : List Char) : (bytes s).length = byteLength s := by
  induction s with
  | nil => rfl
  | cons c s ih => rw [bytes_cons, List.length_append, ih, String.length_utf8EncodeChar, byteLength]

/-- The bytes of a character: one that begins it, and others that begin none. -/
theorem exists_utf8EncodeChar (c : Char) : ∃ first more, String.utf8EncodeChar c = first :: more ∧
    first.IsUTF8FirstByte ∧ ∀ b ∈ more, ¬ b.IsUTF8FirstByte := by
  have hstarts (i : Nat) (hi : i < (String.utf8EncodeChar c).length) :
      (String.utf8EncodeChar c)[i].IsUTF8FirstByte ↔ i = 0 :=
    UInt8.isUTF8FirstByte_getElem_utf8EncodeChar
  generalize hencode : String.utf8EncodeChar c = encoded at hstarts
  cases encoded with
  | nil => exact absurd hencode String.utf8EncodeChar_ne_nil
  | cons first more =>
    refine ⟨first, more, rfl, (hstarts 0 (by simp)).2 rfl, fun b hb hfirst => ?_⟩
    obtain ⟨i, hi, rfl⟩ := List.getElem_of_mem hb
    cases (hstarts (i + 1) (by simpa using hi)).1 hfirst

theorem prefix_of_bytes {s t : List Char} (h : bytes s <+: bytes t) : s <+: t := by
  obtain ⟨more, hmore⟩ := h
  refine List.isPrefix_of_utf8Encode_append_eq_utf8Encode more.toByteArray ?_
  show (bytes s).toByteArray ++ more.toByteArray = (bytes t).toByteArray
  rw [← hmore, List.toByteArray_append]

/-! ## Places between characters -/

/-- An offset stands between two characters, or at either end. -/
def isBoundary (s : List Char) (offset : Nat) : Bool :=
  match (bytes s)[offset]? with
  | some b => decide b.IsUTF8FirstByte
  | none => offset == byteLength s

theorem isBoundary_append (s t : List Char) : isBoundary (s ++ t) (byteLength s) = true := by
  rw [isBoundary, bytes_append, List.getElem?_append_right (by simp), length_bytes, Nat.sub_self]
  cases t with
  | nil => simp
  | cons c t =>
    obtain ⟨first, more, hencode, hfirst, -⟩ := exists_utf8EncodeChar c
    rw [bytes_cons, hencode]
    exact decide_eq_true hfirst

/-! ## Parts -/

def slice? (s : List Char) (start stop : Nat) : Option (List Char) :=
  if start ≤ stop ∧ isBoundary s start ∧ isBoundary s stop then some (slice s start stop) else none

def from? (s : List Char) (start : Nat) : Option (List Char) :=
  slice? s start (byteLength s)

/-- The part up to an offset; an offset behind the end takes nothing away. -/
def truncate? (s : List Char) (stop : Nat) : Option (List Char) :=
  if stop ≤ byteLength s then slice? s 0 stop else some s

theorem slice?_eq {s m : List Char} {start stop : Nat} (h : slice? s start stop = some m) :
    slice s start stop = m := by
  rw [slice?] at h
  split at h
  · exact Option.some.inj h
  · cases h

theorem slice?_append (p s t : List Char) :
    slice? (p ++ (s ++ t)) (byteLength p) (byteLength p + byteLength s) = some s := by
  have hstop := isBoundary_append (p ++ s) t
  rw [List.append_assoc, byteLength_append] at hstop
  rw [slice?, if_pos ⟨Nat.le_add_right .., isBoundary_append p _, hstop⟩, slice_append]

theorem slice?_of_eq {s p m t : List Char} {start stop : Nat} (hs : s = p ++ (m ++ t))
    (hstart : start = byteLength p) (hstop : stop = byteLength (p ++ m)) :
    slice? s start stop = some m := by
  rw [hs, hstart, hstop, byteLength_append, slice?_append]

theorem from?_of_eq {s p t : List Char} {start : Nat} (hs : s = p ++ t)
    (hstart : start = byteLength p) : from? s start = some t :=
  slice?_of_eq (by rw [hs, List.append_nil]) hstart (by rw [hs])

theorem truncate?_append (s t : List Char) : truncate? (s ++ t) (byteLength s) = some s := by
  have h := slice?_append [] s t
  rw [List.nil_append, byteLength, Nat.zero_add] at h
  rw [truncate?, if_pos (by rw [byteLength_append]; exact Nat.le_add_right ..), h]

theorem truncate?_take {text indent whole : List Char} (htext : text <:+ whole)
    (hindent : indent <:+ whole) :
    truncate? text (byteLength text - byteLength indent) =
      some (text.take (text.length - indent.length)) := by
  rcases List.suffix_or_suffix_of_suffix hindent htext with ⟨before, rfl⟩ | ⟨before, rfl⟩
  · rw [byteLength_append, Nat.add_sub_cancel, truncate?_append, List.length_append,
      Nat.add_sub_cancel, List.take_left]
  · have hempty := truncate?_append [] text
    rw [byteLength_append, List.length_append, Nat.sub_eq_zero_of_le (Nat.le_add_left ..),
      Nat.sub_eq_zero_of_le (Nat.le_add_left ..), List.take_zero]
    exact hempty

def minus? (a b : Nat) : Option Nat := if b ≤ a then some (a - b) else none

/-! ## Searching -/

def searchFrom (needle : List UInt8) : List UInt8 → Option Nat
  | [] => none
  | b :: bs =>
    if needle.isPrefixOf (b :: bs) then some 0 else (searchFrom needle bs).map (· + 1)

/-- Where the needle is first found, if it is. One without bytes may not be looked for. -/
def search? (haystack needle : List UInt8) : Option (Option Nat) :=
  if needle.isEmpty then none else some (searchFrom needle haystack)

/-- Nothing that begins a character is found inside of one. -/
theorem searchFrom_append {first : UInt8} (hfirst : first.IsUTF8FirstByte) {more : List UInt8}
    (hmore : ∀ b ∈ more, ¬ b.IsUTF8FirstByte) (needle haystack : List UInt8) :
    searchFrom (first :: needle) (more ++ haystack) =
      (searchFrom (first :: needle) haystack).map (· + more.length) := by
  induction more with
  | nil => simp
  | cons b more ih =>
    have hne : (first == b) = false := by
      refine beq_eq_false_iff_ne.2 fun h => hmore b List.mem_cons_self ?_
      rwa [← h]
    rw [List.cons_append, searchFrom, ih fun b hb => hmore b (List.mem_cons_of_mem _ hb),
      List.isPrefixOf, hne, Option.map_map]
    simp [Function.comp_def, Nat.add_assoc]

theorem searchFrom_bytes {mark : List Char} (hmark : mark ≠ []) (s : List Char) :
    searchFrom (bytes mark) (bytes s) = find mark s := by
  obtain ⟨c, mark, rfl⟩ := List.exists_cons_of_ne_nil hmark
  obtain ⟨first, more, hencode, hfirst, -⟩ := exists_utf8EncodeChar c
  have hneedle : bytes (c :: mark) = first :: (more ++ bytes mark) := by
    rw [bytes_cons, hencode, List.cons_append]
  induction s with
  | nil => rfl
  | cons d s ih =>
    obtain ⟨first', more', hencode', -, hmore'⟩ := exists_utf8EncodeChar d
    have hsize : d.utf8Size = more'.length + 1 := by
      rw [← String.length_utf8EncodeChar, hencode', List.length_cons]
    have hhaystack : bytes (d :: s) = first' :: (more' ++ bytes s) := by
      rw [bytes_cons, hencode', List.cons_append]
    have hsame : (bytes (c :: mark)).isPrefixOf (bytes (d :: s)) =
        (c :: mark).isPrefixOf (d :: s) := by
      rw [Bool.eq_iff_iff, List.isPrefixOf_iff_prefix, List.isPrefixOf_iff_prefix]
      refine ⟨prefix_of_bytes, ?_⟩
      rintro ⟨t, ht⟩
      exact ⟨bytes t, by rw [← ht, bytes_append]⟩
    rw [hhaystack] at hsame ⊢
    rw [searchFrom, hsame, find, cut]
    split
    · rfl
    · rw [hneedle, searchFrom_append hfirst hmore', ← hneedle, ih, find]
      cases cut (c :: mark) s with
      | none => rfl
      | some found =>
        simp only [Option.map_some, byteLength, hsize, Option.some.injEq]
        omega

theorem search?_bytes {mark : List Char} (hmark : mark ≠ []) (s : List Char) :
    search? (bytes s) (bytes mark) = some (find mark s) := by
  have hne : (bytes mark).isEmpty = false := by
    obtain ⟨c, mark, rfl⟩ := List.exists_cons_of_ne_nil hmark
    obtain ⟨first, more, hencode, -⟩ := exists_utf8EncodeChar c
    rw [bytes_cons, hencode]
    rfl
  rw [search?, hne, searchFrom_bytes hmark]
  rfl

/-! ## Characters of one byte -/

theorem byteLength_of_utf8Size {s : List Char} (h : ∀ c ∈ s, c.utf8Size = 1) :
    byteLength s = s.length := by
  induction s with
  | nil => rfl
  | cons c s ih =>
    rw [byteLength, h c List.mem_cons_self, ih fun d hd => h d (List.mem_cons_of_mem _ hd),
      List.length_cons, Nat.add_comm]

theorem from?_drop {s : List Char} {n : Nat} (h : ∀ c ∈ s.take n, c.utf8Size = 1) :
    from? s (min n (byteLength s)) = some (s.drop n) := by
  refine from?_of_eq (List.take_append_drop n s).symm ?_
  have hlength := byteLength_of_utf8Size h
  have hsplit := byteLength_append (s.take n) (s.drop n)
  rw [List.take_append_drop] at hsplit
  rw [List.length_take] at hlength
  rcases Nat.le_total n s.length with hn | hn
  · omega
  · rw [List.take_of_length_le hn] at hlength ⊢
    omega

/-- A byte of a character that is also all of another character is that character. -/
theorem eq_of_mem_utf8EncodeChar {a c : Char} {b : UInt8} (ha : String.utf8EncodeChar a = [b])
    (hascii : b &&& 0x80 = 0) (hb : b ∈ String.utf8EncodeChar c) : c = a := by
  obtain ⟨first, more, hencode, hfirst, hmore⟩ := exists_utf8EncodeChar c
  have hb' : b = first := by
    rw [hencode] at hb
    exact (List.mem_cons.1 hb).resolve_right fun h => hmore b h (.inl hascii)
  have hsame : bytes [a] <+: bytes [c] := ⟨more, by simp [ha, hencode, hb']⟩
  exact (List.cons_prefix_cons.1 (prefix_of_bytes hsame)).1.symm

end Mustache.Text
