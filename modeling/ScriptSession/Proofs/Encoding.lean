import ScriptSession.Proofs.Text

namespace ScriptSession

theorem toList_toByteArray (bytes : List UInt8) : bytes.toByteArray.toList = bytes := by
  have hloop (b : ByteArray) (i : Nat) (done : List UInt8) :
      ByteArray.toList.loop b i done = done.reverse ++ b.data.toList.drop i := by
    fun_induction ByteArray.toList.loop b i done with
    | case1 i done h ih =>
      have hi : i < b.data.toList.length := by simpa using h
      rw [ih, List.drop_eq_getElem_cons hi]
      simp [ByteArray.get!, h]
    | case2 i done h =>
      rw [List.drop_eq_nil_of_le (by simpa using Nat.le_of_not_lt h), List.append_nil]
  rw [ByteArray.toList, hloop, List.toList_data_toByteArray]
  rfl

def encoded (cs : List Char) : List UInt8 :=
  cs.flatMap String.utf8EncodeChar

theorem encoded_cons (c : Char) (cs : List Char) :
    encoded (c :: cs) = String.utf8EncodeChar c ++ encoded cs :=
  List.flatMap_cons

theorem encoded_append (cs ds : List Char) : encoded (cs ++ ds) = encoded cs ++ encoded ds :=
  List.flatMap_append

theorem encoded_eq_nil_iff {cs : List Char} : encoded cs = [] ↔ cs = [] := by
  cases cs with
  | nil => exact iff_of_true rfl rfl
  | cons c cs =>
    rw [encoded_cons, List.append_eq_nil_iff]
    exact iff_of_false (fun h => String.utf8EncodeChar_ne_nil h.1) nofun

theorem toList_utf8 (text : String) : text.toByteArray.toList = encoded text.toList := by
  rw [← String.utf8Encode_toList, List.utf8Encode, toList_toByteArray]
  rfl

theorem eq_toByteArray_of_fromUTF8? {bytes : ByteArray} {text : String}
    (h : String.fromUTF8? bytes = some text) : bytes = text.toByteArray := by
  unfold String.fromUTF8? at h
  split at h
  · cases h
    rfl
  · cases h

theorem fromUTF8?_encoded (cs : List Char) :
    String.fromUTF8? (encoded cs).toByteArray = some (String.ofList cs) := by
  change String.fromUTF8? cs.utf8Encode = _
  rw [String.fromUTF8?, dif_pos ByteArray.isValidUTF8_utf8Encode]
  rfl

/-- Of all characters only the one with its code has a byte below 128 in its encoding. -/
theorem notMem_utf8EncodeChar {b : UInt8} {c : Char} (hb : b.toNat < 128)
    (h : c.val.toNat ≠ b.toNat) : b ∉ String.utf8EncodeChar c := by
  have hbyte {n : Nat} (hn : n % 256 ≠ b.toNat) : b ≠ UInt8.ofNat n := fun he => by
    have htoNat := congrArg UInt8.toNat he
    rw [UInt8.toNat_ofNat'] at htoNat
    exact hn htoNat.symm
  unfold String.utf8EncodeChar
  dsimp only
  split_ifs with h₁ h₂ h₃
  all_goals simp only [List.mem_cons, List.not_mem_nil, or_false, not_or]
  · exact hbyte (by omega)
  · exact ⟨hbyte (by omega), hbyte (by omega)⟩
  · exact ⟨hbyte (by omega), hbyte (by omega), hbyte (by omega)⟩
  · exact ⟨hbyte (by omega), hbyte (by omega), hbyte (by omega), hbyte (by omega)⟩

theorem ten_notMem_utf8EncodeChar {c : Char} (h : c ≠ '\n') : 10 ∉ String.utf8EncodeChar c :=
  notMem_utf8EncodeChar (by decide) fun he => h (Char.ext (UInt32.toNat_inj.1 he))

theorem ten_notMem_encoded {cs : List Char} (h : '\n' ∉ cs) : 10 ∉ encoded cs := by
  intro hm
  obtain ⟨c, hc, hb⟩ := List.mem_flatMap.1 hm
  exact ten_notMem_utf8EncodeChar (fun he => h (he ▸ hc)) hb

theorem takeWhile_encoded (cs : List Char) :
    (encoded cs).takeWhile (· ≠ 10) = encoded (cs.takeWhile (· ≠ '\n')) := by
  induction cs with
  | nil => rfl
  | cons c cs ih =>
    by_cases hc : c = '\n'
    · subst hc
      rfl
    · have hbytes : ∀ b ∈ String.utf8EncodeChar c, decide (b ≠ 10) = true := fun b hb =>
        decide_eq_true fun he => ten_notMem_utf8EncodeChar hc (he ▸ hb)
      rw [encoded_cons, List.takeWhile_append_of_pos hbytes, ih,
        List.takeWhile_cons_of_pos (by simpa using hc), encoded_cons]

theorem encoded_joinWith (parts : List (List Char)) :
    encoded (Text.joinWith ['\n'] parts) = [10].intercalate (parts.map encoded) := by
  induction parts with
  | nil => rfl
  | cons part rest ih =>
    cases rest with
    | nil => rw [Text.joinWith, List.intercalate_singleton, List.map_singleton,
        List.intercalate_singleton]
    | cons next rest =>
      have hjoin : Text.joinWith ['\n'] (part :: next :: rest) =
          part ++ '\n' :: Text.joinWith ['\n'] (next :: rest) := by
        rw [Text.joinWith, List.intercalate_cons_cons, List.append_assoc]
        rfl
      have hparts : (part :: next :: rest).map encoded =
          encoded part :: encoded next :: rest.map encoded := rfl
      rw [hjoin, encoded_append, encoded_cons, ih, hparts, List.intercalate_cons_cons,
        List.append_assoc]
      rfl

theorem splitOn_encoded (cs : List Char) :
    (encoded cs).splitOn 10 = (Text.rows cs).map encoded := by
  have hrows : ∀ bytes ∈ (Text.rows cs).map encoded, 10 ∉ bytes := by
    intro bytes hbytes
    obtain ⟨row, hrow, rfl⟩ := List.mem_map.1 hbytes
    exact ten_notMem_encoded (Text.not_mem_of_mem_rows hrow)
  have hne : (Text.rows cs).map encoded ≠ [] := by
    rw [ne_eq, List.map_eq_nil_iff]
    exact List.splitOn_ne_nil _ _
  have hcut := List.splitOn_intercalate 10 hrows hne
  rwa [← encoded_joinWith, Text.joinWith_rows] at hcut

theorem getLast?_encoded (cs : List Char) :
    (encoded cs).getLast? = some 13 ↔ cs.getLast? = some '\r' := by
  obtain rfl | ⟨front, c, rfl⟩ := List.eq_nil_or_concat cs
  · exact ⟨nofun, nofun⟩
  · have hbytes : encoded [c] = String.utf8EncodeChar c := List.flatMap_singleton ..
    have hne : encoded [c] ≠ [] := hbytes ▸ String.utf8EncodeChar_ne_nil
    rw [List.concat_eq_append, encoded_append, List.getLast?_append_of_ne_nil _ hne,
      List.getLast?_concat, Option.some_inj]
    constructor
    · intro hlast
      by_contra hc
      have hmem := List.mem_of_getLast? hlast
      rw [hbytes] at hmem
      exact notMem_utf8EncodeChar (by decide) (fun he => hc (Char.ext (UInt32.toNat_inj.1 he))) hmem
    · rintro rfl
      rfl

end ScriptSession
