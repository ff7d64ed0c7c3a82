import Mathlib
import MarkovCheck.Text.Line

/-!
# MarkovCheck.Proofs.Text.Line

The lines of an input are all of it, and the lines of a text are the ones that it was put together from.

A line feed is one byte, and no other character has this byte in its encoding, so the bytes of a text
are cut into lines exactly where the text has its line feeds. A line that is no text ends the reading,
so the lines that are read are the valid ones in front of it.

* `flatten_rawLines` — no byte is lost between the lines.
* `map_decodeLine?_eq` — when all lines are texts, all of them are read.
* `lines_join` — the lines of a text.
-/

namespace MarkovCheck
namespace Text

variable {line rest : List UInt8} {b : UInt8}

/-! ## Raw lines -/

theorem flatten_consByte (b : UInt8) (ls : List (List UInt8)) :
    (consByte b ls).flatten = b :: ls.flatten := by
  unfold consByte
  split
  · rfl
  · cases ls <;> rfl

/-- The lines with their endings are together the input. -/
theorem flatten_rawLines (bytes : List UInt8) : (rawLines bytes).flatten = bytes := by
  induction bytes with
  | nil => rfl
  | cons b bytes ih => rw [rawLines, List.foldr_cons, flatten_consByte, ← rawLines, ih]

/-- The first line ends at the first line feed. -/
theorem rawLines_line (h : lineFeed ∉ line) (rest : List UInt8) :
    rawLines (line ++ lineFeed :: rest) = (line ++ [lineFeed]) :: rawLines rest := by
  induction line with
  | nil =>
    rw [List.nil_append, rawLines, List.foldr_cons, ← rawLines]
    exact if_pos rfl
  | cons b line ih =>
    rw [List.mem_cons, not_or] at h
    have hb : b ≠ lineFeed := Ne.symm h.1
    rw [List.cons_append, rawLines, List.foldr_cons, ← rawLines, ih h.2, consByte, if_neg hb]
    rfl

theorem stripEnding_line (h : line.getLast? ≠ some carriageReturn) :
    stripEnding (line ++ [lineFeed]) = line := by
  rw [List.getLast?_eq_head?_reverse] at h
  unfold stripEnding
  rw [List.reverse_append, List.reverse_singleton, List.singleton_append]
  dsimp only
  rw [if_pos rfl]
  cases hrev : line.reverse with
  | nil => exact (List.reverse_eq_nil_iff.1 hrev).symm
  | cons c rest =>
    rw [hrev, List.head?_cons] at h
    have hc : c ≠ carriageReturn := fun heq => h (congrArg some heq)
    dsimp only
    rw [if_neg hc, ← hrev, List.reverse_reverse]

/-! ## Decoded lines -/

/-- When all lines are texts, all of them are read. -/
theorem map_decodeLine?_eq {ls : List (List UInt8)} (h : ∀ l ∈ ls, (decodeLine? l).isSome = true) :
    ls.map decodeLine? = (decodeLines ls).map some := by
  induction ls with
  | nil => rfl
  | cons l ls ih =>
    rw [List.forall_mem_cons] at h
    obtain ⟨s, hs⟩ := Option.isSome_iff_exists.1 h.1
    rw [decodeLines, hs, List.map_cons, List.map_cons, hs, ih h.2]

/-! ## The lines of a text -/

theorem toList_loop (bytes : ByteArray) (i : ℕ) (r : List UInt8) :
    ByteArray.toList.loop bytes i r = r.reverse ++ bytes.data.toList.drop i := by
  induction hk : bytes.size - i generalizing i r with
  | zero =>
    rw [ByteArray.toList.loop, if_neg (by omega), List.drop_eq_nil_of_le, List.append_nil]
    rw [Array.length_toList]
    exact Nat.le_of_sub_eq_zero hk
  | succ k ih =>
    have hi : i < bytes.size := by omega
    have hlength : i < bytes.data.toList.length := by rwa [Array.length_toList]
    have hget : bytes.get! i = bytes.data.toList[i] := by
      rw [Array.getElem_toList]
      exact getElem!_pos bytes.data i hi
    rw [ByteArray.toList.loop, if_pos hi, ih _ _ (by omega), List.reverse_cons, List.append_assoc, hget,
      List.singleton_append, List.getElem_cons_drop]

theorem toList_eq_data (bytes : ByteArray) : bytes.toList = bytes.data.toList := toList_loop bytes 0 []

/-- The bytes of a text are those of its characters. -/
theorem toList_toUTF8 (s : String) : s.toUTF8.toList = s.toList.flatMap String.utf8EncodeChar := by
  rw [toList_eq_data, String.toUTF8_eq_toByteArray, ← String.utf8Encode_toList, List.utf8Encode,
    List.toList_data_toByteArray]

/-- A byte of ASCII occurs in the encoding of its own character only. -/
theorem toNat_of_mem_utf8EncodeChar {c : Char} (hb : b.toNat < 128) (h : b ∈ String.utf8EncodeChar c) :
    c.toNat = b.toNat := by
  have hc : c.val.toNat = c.toNat := rfl
  unfold String.utf8EncodeChar at h
  dsimp only at h
  rw [hc] at h
  split at h
  · obtain rfl := List.mem_singleton.1 h
    rw [UInt8.toNat_ofNat']
    omega
  · split at h
    · simp only [List.mem_cons, List.not_mem_nil, or_false] at h
      rcases h with rfl | rfl <;> rw [UInt8.toNat_ofNat'] at hb <;> omega
    · split at h
      · simp only [List.mem_cons, List.not_mem_nil, or_false] at h
        rcases h with rfl | rfl | rfl <;> rw [UInt8.toNat_ofNat'] at hb <;> omega
      · simp only [List.mem_cons, List.not_mem_nil, or_false] at h
        rcases h with rfl | rfl | rfl | rfl <;> rw [UInt8.toNat_ofNat'] at hb <;> omega

/-- The text fits on one line, and is read back from it. -/
structure IsLine (s : String) : Prop where
  lineFeed : '\n' ∉ s.toList
  carriageReturn : s.toList.getLast? ≠ some '\r'

theorem IsLine.lineFeed_notMem {s : String} (h : IsLine s) :
    Text.lineFeed ∉ s.toList.flatMap String.utf8EncodeChar := by
  intro hmem
  obtain ⟨c, hc, hb⟩ := List.mem_flatMap.1 hmem
  have hval := toNat_of_mem_utf8EncodeChar (by decide) hb
  obtain rfl : c = '\n' := Char.toNat_inj.1 hval
  exact h.lineFeed hc

theorem IsLine.decodeLine?_eq {s : String} (h : IsLine s) :
    decodeLine? (s.toList.flatMap String.utf8EncodeChar ++ [Text.lineFeed]) = some s := by
  have hlast : (s.toList.flatMap String.utf8EncodeChar).getLast? ≠ some Text.carriageReturn := by
    intro hlast
    obtain hnil | ⟨cs, c, hcs⟩ := List.eq_nil_or_concat s.toList
    · rw [hnil] at hlast
      cases hlast
    · rw [hcs, List.concat_eq_append, List.flatMap_append, List.flatMap_singleton, List.getLast?_append] at hlast
      have hd := List.getLast?_eq_some_getLast (String.utf8EncodeChar_ne_nil (c := c))
      rw [hd, Option.some_or, Option.some_inj] at hlast
      have hval := toNat_of_mem_utf8EncodeChar (by decide) (hlast ▸ List.getLast_mem (String.utf8EncodeChar_ne_nil (c := c)))
      obtain rfl : c = '\r' := Char.toNat_inj.1 hval
      exact h.carriageReturn (by rw [hcs, List.concat_eq_append, List.getLast?_concat])
  rw [decodeLine?, stripEnding_line hlast, ← toList_toUTF8, toList_eq_data]
  exact dif_pos s.isValidUTF8

/-- Lines that are put together to a text are its lines. -/
theorem lines_join {ls : List String} (h : ∀ s ∈ ls, IsLine s) :
    lines (String.join (ls.map (· ++ "\n"))).toUTF8 = ls := by
  have hbytes : (String.join (ls.map (· ++ "\n"))).toUTF8.toList =
      ls.flatMap fun s => s.toList.flatMap String.utf8EncodeChar ++ [lineFeed] := by
    rw [toList_toUTF8]
    rw [String.toList_join, List.flatMap_map, List.flatMap_assoc]
    refine List.flatMap_congr fun s _ => ?_
    rw [String.toList_append, List.flatMap_append]
    rfl
  rw [lines, hbytes]
  clear hbytes
  induction ls with
  | nil => rfl
  | cons s ls ih =>
    rw [List.forall_mem_cons] at h
    rw [List.flatMap_cons, List.append_assoc, List.singleton_append, rawLines_line h.1.lineFeed_notMem,
      decodeLines, h.1.decodeLine?_eq, ih h.2]

end Text
end MarkovCheck
