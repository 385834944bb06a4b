import Mustache.Proofs.Cache.Clearing
import Mustache.Proofs.Text.Bytes

/-!
# Mustache.Proofs.Cache.Naming

Which fingerprints have one file.

Each part of a fingerprint is hashed in a form that shows its own end (`SelfDelimiting`): words and
flags have a fixed length, and a text ends at a byte that is in no text. So the bytes that are
hashed for a text tell its whole fingerprint, and another fingerprint has the same file just if the
hash function has a collision at the two (`Fingerprint.shares_file_iff`).
-/

namespace Mustache

/-! ## Bytes of a text -/

theorem ByteArray.toList_loop (b : ByteArray) (i : Nat) (done : List UInt8) :
    ByteArray.toList.loop b i done = done.reverse ++ b.data.toList.drop i := by
  fun_induction ByteArray.toList.loop b i done with
  | case1 i done hi ih =>
    have hlength : i < b.data.toList.length := hi
    have hget : b.get! i = b.data.toList[i] := getElem!_pos b.data i hi
    rw [ih, List.reverse_cons, List.append_assoc, hget, List.singleton_append,
      List.getElem_cons_drop]
  | case2 i done hi =>
    have hlength : b.data.toList.length ≤ i := Nat.le_of_not_lt hi
    rw [List.drop_eq_nil_of_le hlength, List.append_nil]

theorem toList_toUTF8 (s : String) : s.toUTF8.toList = Text.bytes s.toList := by
  have hdata : s.toUTF8 = (Text.bytes s.toList).toByteArray := by
    have h := String.toByteArray_ofList (l := s.toList)
    rwa [String.ofList_toList] at h
  rw [ByteArray.toList, ByteArray.toList_loop, hdata, List.toList_data_toByteArray]
  rfl

theorem not_mem_utf8EncodeChar (c : Char) : 0xff ∉ String.utf8EncodeChar c := by
  have hbyte {n : Nat} (hn : n < 255) : (0xff : UInt8) ≠ UInt8.ofNat n := by
    intro h
    have hnat := congrArg UInt8.toNat h
    rw [UInt8.toNat_ofNat', Nat.mod_eq_of_lt (Nat.lt_succ_of_lt hn)] at hnat
    exact absurd hnat (Nat.ne_of_gt hn)
  fun_cases String.utf8EncodeChar c
  all_goals simp only [List.mem_cons, List.not_mem_nil, or_false, not_or]
  case case1 => exact hbyte (by omega)
  case case2 => exact ⟨hbyte (by omega), hbyte (by omega)⟩
  case case3 => exact ⟨hbyte (by omega), hbyte (by omega), hbyte (by omega)⟩
  case case4 => exact ⟨hbyte (by omega), hbyte (by omega), hbyte (by omega), hbyte (by omega)⟩

theorem Text.not_mem_bytes (s : List Char) : 0xff ∉ Text.bytes s := by
  rw [Text.bytes, List.mem_flatMap]
  rintro ⟨c, -, hc⟩
  exact not_mem_utf8EncodeChar c hc

theorem Text.bytes_injective : Function.Injective Text.bytes := by
  intro s t h
  have hst : s <+: t := prefix_of_bytes (h ▸ List.prefix_rfl)
  have hts : t <+: s := prefix_of_bytes (h ▸ List.prefix_rfl)
  exact hst.eq_of_length (Nat.le_antisymm hst.length_le hts.length_le)

/-! ## Forms that show their end -/

/-- What was written, and what stands behind it, can be told from the bytes. -/
def SelfDelimiting {α : Type} (write : α → List UInt8) : Prop :=
  ∀ ⦃a b : α⦄ ⦃s t : List UInt8⦄, write a ++ s = write b ++ t → a = b ∧ s = t

theorem SelfDelimiting.injective {α : Type} {write : α → List UInt8} (h : SelfDelimiting write) :
    Function.Injective write :=
  fun a b hab => (h (s := []) (t := []) (by rw [hab])).1

theorem selfDelimiting_of_length {α : Type} {write : α → List UInt8} (n : Nat)
    (hlength : ∀ a, (write a).length = n) (hinj : Function.Injective write) :
    SelfDelimiting write := by
  intro a b s t h
  obtain ⟨hab, hst⟩ := List.append_inj h ((hlength a).trans (hlength b).symm)
  exact ⟨hinj hab, hst⟩

namespace SipHash

def number (bytes : List UInt8) : Nat := bytes.foldr (fun b n => b.toNat + 256 * n) 0

theorem toNat_shifted_byte (n : UInt64) {i : Nat} (hi : i < 8) :
    (n >>> (8 * UInt64.ofNat i)).toUInt8.toNat = n.toNat >>> (8 * i) % 256 := by
  have hshift : (8 * UInt64.ofNat i).toNat = 8 * i := by
    rw [UInt64.toNat_mul, UInt64.toNat_ofNat']
    show 8 * (i % 2 ^ 64) % 2 ^ 64 = 8 * i
    omega
  rw [UInt64.toNat_toUInt8, UInt64.toNat_shiftRight, hshift,
    Nat.mod_eq_of_lt (show 8 * i < 64 by omega)]

theorem number_wordBytes (n : UInt64) : number (wordBytes n) = n.toNat := by
  have hdigits : ∀ k i : Nat, i + k ≤ 8 →
      number ((List.range' i k).map fun i => (n >>> (8 * UInt64.ofNat i)).toUInt8) =
        n.toNat >>> (8 * i) % 256 ^ k := by
    intro k
    induction k with
    | zero =>
      intro i _
      rw [Nat.pow_zero, Nat.mod_one]
      rfl
    | succ k ih =>
      intro i hi
      rw [List.range'_succ, List.map_cons, number, List.foldr_cons, ← number, ih (i + 1) (by omega),
        toNat_shifted_byte n (by omega), Nat.mul_succ, Nat.shiftRight_add, Nat.pow_succ',
        Nat.mod_mul, Nat.shiftRight_eq_div_pow _ 8]
  have h := hdigits 8 0 (Nat.le_refl 8)
  rw [← List.range_eq_range', ← wordBytes] at h
  exact h.trans (Nat.mod_eq_of_lt n.toNat_lt)

theorem selfDelimiting_wordBytes : SelfDelimiting wordBytes := by
  refine selfDelimiting_of_length 8 (fun n => ?_) fun n m h => ?_
  · rw [wordBytes, List.length_map, List.length_range]
  · have hnumber := congrArg number h
    rwa [number_wordBytes, number_wordBytes, UInt64.toNat_inj] at hnumber

theorem selfDelimiting_flagBytes : SelfDelimiting flagBytes :=
  selfDelimiting_of_length 1 (fun _ => rfl) fun a b h => by
    cases a <;> cases b <;> first | rfl | cases h

theorem selfDelimiting_textBytes : SelfDelimiting textBytes := by
  intro a b s t h
  simp only [textBytes, toList_toUTF8, List.append_assoc, List.singleton_append] at h
  rcases List.append_eq_append_iff.1 h with ⟨more, hb, hs⟩ | ⟨more, ha, ht⟩
  · cases more with
    | nil =>
      rw [List.append_nil] at hb
      exact ⟨String.toList_inj.1 (Text.bytes_injective hb.symm), (List.cons.inj hs).2⟩
    | cons c more =>
      obtain ⟨rfl, -⟩ := List.cons.inj hs
      exact absurd (hb ▸ by simp) (Text.not_mem_bytes b.toList)
  · cases more with
    | nil =>
      rw [List.append_nil] at ha
      exact ⟨String.toList_inj.1 (Text.bytes_injective ha), (List.cons.inj ht).2.symm⟩
    | cons c more =>
      obtain ⟨rfl, -⟩ := List.cons.inj ht
      exact absurd (ha ▸ by simp) (Text.not_mem_bytes a.toList)

/-- Two messages with one hash. -/
def Collision (a b : List UInt8) : Prop := a ≠ b ∧ hash a = hash b

end SipHash

open SipHash

/-! ## Fingerprints -/

namespace Fingerprint

/-- Where the source is a text, the bytes that are hashed tell the fingerprint; those of a file
begin with another word. -/
theorem bytes_inj {f g : Fingerprint} {hash length : UInt64} (hf : f.source = .text hash length) :
    f.bytes = g.bytes ↔ f = g := by
  refine ⟨fun h => ?_, congrArg bytes⟩
  obtain ⟨source, ⟨opening, closing⟩, ⟨lambdas, indentation, code, beautify⟩⟩ := f
  obtain ⟨source', ⟨opening', closing'⟩, ⟨lambdas', indentation', code', beautify'⟩⟩ := g
  obtain rfl : source = .text hash length := hf
  cases source' with
  | file path modified size =>
    simp only [bytes, SourceVersion.bytes, List.append_assoc] at h
    exact absurd (selfDelimiting_wordBytes h).1 (by decide)
  | text hash' length' =>
    simp only [bytes, SourceVersion.bytes, List.append_assoc] at h
    obtain ⟨hhash, hrest⟩ := selfDelimiting_wordBytes (selfDelimiting_wordBytes h).2
    obtain ⟨hlength, hmarks⟩ := selfDelimiting_wordBytes hrest
    obtain ⟨hopening, hmarks₁⟩ := selfDelimiting_textBytes hmarks
    obtain ⟨hclosing, hflags⟩ := selfDelimiting_textBytes hmarks₁
    obtain ⟨hlambdas, hflags₁⟩ := selfDelimiting_flagBytes hflags
    obtain ⟨hindentation, hflags₂⟩ := selfDelimiting_flagBytes hflags₁
    obtain ⟨hcode, hflags₃⟩ := selfDelimiting_flagBytes hflags₂
    have hbeautify := selfDelimiting_flagBytes.injective hflags₃
    rw [hhash, hlength, hopening, hclosing, hlambdas, hindentation, hcode, hbeautify]

theorem hexDigits_inj {x y : UInt64} (h : hexDigits 16 x.toNat = hexDigits 16 y.toNat) :
    x = y := by
  have hdigit : ∀ a < 16, ∀ b < 16, Nat.digitChar a = Nat.digitChar b → a = b := by decide
  have hdigits : ∀ n a b : Nat, a < 16 ^ n → b < 16 ^ n → hexDigits n a = hexDigits n b →
      a = b := by
    intro n
    induction n with
    | zero =>
      intro a b ha hb _
      rw [Nat.pow_zero] at ha hb
      omega
    | succ n ih =>
      intro a b ha hb h
      rw [hexDigits, hexDigits] at h
      obtain ⟨hfront, hlast⟩ := List.append_inj' h rfl
      rw [Nat.pow_succ'] at ha hb
      have hdiv := ih _ _ (Nat.div_lt_of_lt_mul ha) (Nat.div_lt_of_lt_mul hb) hfront
      have hmod := hdigit _ (Nat.mod_lt a (by decide)) _ (Nat.mod_lt b (by decide))
        (List.cons.inj hlast).1
      omega
  exact UInt64.toNat_inj.1 (hdigits 16 _ _ x.toNat_lt y.toNat_lt h)

theorem digest_eq_iff {f g : Fingerprint} :
    f.digest = g.digest ↔ SipHash.hash f.bytes = SipHash.hash g.bytes := by
  refine ⟨fun h => ?_, fun h => by rw [digest, digest, h]⟩
  rw [digest, digest, String.ofList_inj] at h
  exact hexDigits_inj h

end Fingerprint

/-! ## Files -/

theorem Cache.fileName_entryFile (directory : Path) (f : Fingerprint) :
    (entryFile directory f).fileName = some (entryName f) := by
  have hname := isName_entryName f
  show (directory.join ⟨entryName f⟩).fileName = _
  by_cases hne : directory.text.isEmpty = false
  · obtain ⟨front, hparts, -⟩ := Path.parts_join hname hne
    exact Path.fileName_of_parts hname hparts
  · have hempty : directory.text.toList = [] := by
      rw [Bool.not_eq_false, String.isEmpty_iff] at hne
      rw [hne]
      rfl
    rw [Path.join, hname.not_isAbsolute, hempty]
    exact hname.fileName

theorem Cache.entryFile_beq_iff {directory : Path} {f g : Fingerprint} :
    entryFile directory f == entryFile directory g ↔
      SipHash.hash f.bytes = SipHash.hash g.bytes := by
  rw [← Fingerprint.digest_eq_iff]
  refine ⟨fun h => ?_, fun h => by rw [entryFile, entryFile, h]; exact Path.beq_iff.2 rfl⟩
  have hname : some (entryName f) = some (entryName g) := by
    rw [← fileName_entryFile directory f, ← fileName_entryFile directory g, Path.fileName,
      Path.fileName, Path.beq_iff.1 h]
  have hlist := congrArg String.toList (Option.some.inj hname)
  simp only [entryName, String.toList_append] at hlist
  exact String.toList_inj.1 (List.append_cancel_right (List.append_cancel_right hlist))

/-- The bytes that are hashed for the fingerprint of a text are those of no other fingerprint. So in
the directory of a cache another one has the same file just if the hash has a collision there. -/
theorem Fingerprint.shares_file_iff (directory : Path) (hash length : UInt64)
    (delimiters : Delimiters) (options : CompilerOptions) (g : Fingerprint) :
    let f : Fingerprint := ⟨.text hash length, delimiters, options⟩
    (f.bytes = g.bytes ↔ f = g) ∧
      (Cache.entryFile directory f == Cache.entryFile directory g ↔
        f = g ∨ Collision f.bytes g.bytes) := by
  intro f
  have hbytes : f.bytes = g.bytes ↔ f = g := bytes_inj rfl
  refine ⟨hbytes, Cache.entryFile_beq_iff.trans ⟨fun h => ?_, ?_⟩⟩
  · by_cases hfg : f = g
    · exact .inl hfg
    · exact .inr ⟨mt hbytes.1 hfg, h⟩
  · rintro (rfl | ⟨-, hhash⟩)
    · rfl
    · exact hhash

end Mustache
