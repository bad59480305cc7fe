import Mathlib.Algebra.GroupWithZero.Nat
import Mathlib.Data.List.Forall2
import CodecServer.Ambe3K.Session
import CodecServer.Ambe3K.Protocol.Frame

/-! Control words in text: six groups of four hexadecimal digits, with colons between them. What the
parser makes of such a text, and of others, and what goes on the wire then. -/
namespace CodecServer.Ambe3K
open CodecServer.Numeral CodecServer.Ambe3K.Protocol

def toRateP (words : List (BitVec 16)) : Option RateP :=
  if h : words.length = 6 then some ⟨words.toArray,by simpa using h⟩ else none

/-- Six groups of four hexadecimal digits, joined by colons, and the words that they stand for. -/
def Spells (text : Text) (cwds : RateP) : Prop :=
  ∃ groups : List Text, text = [0x3a].intercalate groups ∧
    List.Forall₂ (fun group w => hexWord group = some w) groups cwds.toList

/-- Six groups of four bytes, whatever these are. -/
def Grouped (text : Text) : Prop :=
  (parts text).length = 6 ∧ ∀ part ∈ parts text, part.length = 4

/-- The bytes that pairs of hexadecimal digits stand for. -/
def hexBytes : Text → List Byte
  | b::c::s => BitVec.ofNat 8 (value 16 [b,c])::hexBytes s
  | _ => []

/-- The bytes that a text spells, colons left out. -/
def spelledBytes (text : Text) : List Byte := hexBytes (text.filter (· ≠ 0x3a))

/-- Exactly the texts of the grammar are read, as the words that they stand for; and then the
`RATEP` field of a request, behind the channel field, has on the wire the bytes that the text
spells. -/
structure ReadsGrammar (fresh : RateP) (text : Text) : Prop where
  accepts : (parseRatePString fresh text).isSome ↔ ∃ cwds, Spells text cwds
  words : ∀ cwds, Spells text cwds → parseRatePString fresh text = some cwds
  wire : ∀ cwds, parseRatePString fresh text = some cwds → ∀ channel direction, channel ≤ 3 →
    ∃ p q bytes, setupRequestRateP channel cwds direction = .ok p ∧ p.writeTo = .ok (q,bytes) ∧
      (bytes.drop 5).take 13 = 0x0a::spelledBytes text

theorem length_parts (s : Text) :
    ((parts s).map List.length).sum+(parts s).length = s.length+1 := by
  induction s with
  | nil => rfl
  | cons b s ih =>
    simp only [parts]
    split_ifs
    · simp only [List.map_cons,List.sum_cons,List.length_nil,List.length_cons]
      omega
    · cases hs : parts s with
      | nil => simp [hs] at ih
      | cons part rest =>
        simp only [hs,List.map_cons,List.sum_cons,List.length_cons] at ih ⊢
        omega

theorem parts_eq_splitOn (s : Text) : parts s = s.splitOn 0x3a := by
  induction s with
  | nil => rfl
  | cons b s ih =>
    simp only [parts,List.splitOn_cons_eq_if_modifyHead,beq_iff_eq,ih]
    split_ifs with hb
    · rfl
    · cases hs : s.splitOn 0x3a with
      | nil => exact absurd hs (List.splitOn_ne_nil _ _)
      | cons part rest => rfl

theorem forall₂_of_mapM {α β : Type} {f : α → Option β} {l : List α} {r : List β}
    (h : l.mapM f = some r) : List.Forall₂ (fun a b => f a = some b) l r := by
  induction l generalizing r with
  | nil =>
    obtain rfl := Option.some.inj h
    exact .nil
  | cons a l ih =>
    rw [List.mapM_cons] at h
    obtain ⟨b,hb,h⟩ := Option.bind_eq_some_iff.mp h
    obtain ⟨r,hr,h⟩ := Option.bind_eq_some_iff.mp h
    obtain rfl := Option.some.inj h
    exact .cons hb (ih hr)

theorem mapM_of_forall₂ {α β : Type} {f : α → Option β} {l : List α} {r : List β}
    (h : List.Forall₂ (fun a b => f a = some b) l r) : l.mapM f = some r := by
  induction h with
  | nil => rfl
  | cons hb _ ih =>
    rw [List.mapM_cons,hb,ih]
    rfl

theorem hexWord_length {text : Text} {w : BitVec 16} (h : hexWord text = some w) :
    text.length = 4 := by
  unfold hexWord at h
  split_ifs at h with hw
  exact hw.1

theorem length_of_words {l : List Text} {r : List (BitVec 16)}
    (h : List.Forall₂ (fun part w => hexWord part = some w) l r) :
    l.length = r.length ∧ (l.map List.length).sum = 4*r.length ∧ ∀ part ∈ l, part.length = 4 := by
  induction h with
  | nil => simp
  | cons hw _ ih =>
    obtain ⟨hlen,hsum,hall⟩ := ih
    have h4 := hexWord_length hw
    simp only [List.length_cons,List.map_cons,List.sum_cons,List.forall_mem_cons]
    exact ⟨by omega,by omega,h4,hall⟩

/-- Control words are read as they are written exactly if they fit a `short`. -/
theorem parseRatePString_of_usable (fresh : RateP) {text : Text} {cwds : RateP}
    (h : ((parts text).mapM hexWord).bind toRateP = some cwds) :
    ∃ read, parseRatePString fresh text = some read ∧
      (read = cwds ↔ ∀ w ∈ cwds.toList, w.toNat < 2^15) := by
  obtain ⟨words,hmap,hwords⟩ := Option.bind_eq_some_iff.mp h
  have hall := forall₂_of_mapM hmap
  unfold toRateP at hwords
  split_ifs at hwords with h6
  obtain rfl := Option.some.inj hwords
  obtain ⟨hlen,hsum,h4⟩ := length_of_words hall
  have htext := length_parts text
  have hparts : (parts text).length = 6 := hlen.trans h6
  unfold parseRatePString
  rw [if_neg (by omega),dif_pos hparts,if_pos (by simpa using h4)]
  refine ⟨_,rfl,?_⟩
  have hword : ∀ i (hi : i < 6), extractShort fresh[i] ((parts text).get ⟨i,hparts ▸ hi⟩) =
      if (words.get ⟨i,h6 ▸ hi⟩).toNat < 2^15 then words.get ⟨i,h6 ▸ hi⟩
      else BitVec.ofNat 16 (2^15-1) := by
    intro i hi
    exact extractShort_of_hexWord (hall.get (hparts ▸ hi) (h6 ▸ hi)) _
  rw [Vector.ext_iff]
  simp only [Vector.getElem_ofFn]
  constructor
  · intro heq w hw
    obtain ⟨⟨i,hi⟩,rfl⟩ := List.get_of_mem (l := words) hw
    have hat := (hword i (h6 ▸ hi)).symm.trans (heq i (h6 ▸ hi))
    by_contra hbig
    rw [if_neg hbig] at hat
    change _ = words.get ⟨i,hi⟩ at hat
    rw [← hat] at hbig
    exact hbig (by decide)
  · intro hfits i hi
    refine (hword i hi).trans (if_pos ?_)
    exact hfits _ (List.get_mem words _)

/-- Two hexadecimal digits and two more: the high byte of a word and the low one. -/
theorem hexBytes_of_hexWord {group : Text} {w : BitVec 16} (h : hexWord group = some w)
    (rest : Text) : hexBytes (group ++ rest) = htons w ++ hexBytes rest := by
  have hlen := hexWord_length h
  unfold hexWord at h
  split_ifs at h with hw
  obtain rfl := Option.some.inj h
  obtain ⟨a,b,c,d,rfl⟩ : ∃ a b c d, group = [a,b,c,d] := by
    match group with
    | [a,b,c,d] => exact ⟨a,b,c,d,rfl⟩
  simp only [List.all_cons,List.all_nil,Bool.and_true,Bool.and_eq_true,isDigit,
    Option.isSome_iff_exists] at hw
  obtain ⟨-,⟨u,hu⟩,⟨v,hv⟩,⟨x,hx⟩,⟨y,hy⟩⟩ := hw
  have hu16 := digit_lt hu
  have hv16 := digit_lt hv
  have hx16 := digit_lt hx
  have hy16 := digit_lt hy
  have hvalue : value 16 [a,b,c,d] = (16*u+v)*256+(16*x+y) := by
    simp only [value,List.filterMap_cons,hu,hv,hx,hy,List.filterMap_nil,List.foldl_cons,
      List.foldl_nil]
    omega
  have hhigh : value 16 [a,b] = 16*u+v := by
    simp only [value,List.filterMap_cons,hu,hv,List.filterMap_nil,List.foldl_cons,List.foldl_nil]
    omega
  have hlow : value 16 [c,d] = 16*x+y := by
    simp only [value,List.filterMap_cons,hx,hy,List.filterMap_nil,List.foldl_cons,List.foldl_nil]
    omega
  rw [hvalue]
  simp only [List.cons_append,List.nil_append,hexBytes,hhigh,hlow,htons,List.cons.injEq,and_true]
  constructor
  · apply BitVec.eq_of_toNat_eq
    simp only [BitVec.extractLsb'_toNat,BitVec.toNat_ofNat,Nat.shiftRight_eq_div_pow]
    omega
  · apply BitVec.eq_of_toNat_eq
    simp only [BitVec.extractLsb'_toNat,BitVec.toNat_ofNat,Nat.shiftRight_eq_div_pow]
    omega

theorem not_mem_hexWord {group : Text} {w : BitVec 16} (h : hexWord group = some w) :
    0x3a ∉ group := by
  unfold hexWord at h
  split_ifs at h with hw
  intro hmem
  have := List.all_eq_true.mp hw.2 _ hmem
  exact absurd this (by decide)

theorem spelledBytes_intercalate {groups : List Text} {words : List (BitVec 16)}
    (h : List.Forall₂ (fun group w => hexWord group = some w) groups words) :
    spelledBytes ([0x3a].intercalate groups) = words.flatMap htons := by
  have hfilter : ∀ {group : Text} {w : BitVec 16}, hexWord group = some w →
      group.filter (· ≠ 0x3a) = group := by
    intro group w hw
    rw [List.filter_eq_self]
    intro b hb
    simpa using fun heq : b = 0x3a => not_mem_hexWord hw (heq ▸ hb)
  unfold spelledBytes
  induction h with
  | nil => rfl
  | @cons group w groups words hw hrest ih =>
    cases hrest with
    | nil =>
      rw [List.intercalate_singleton,hfilter hw,← List.append_nil group,hexBytes_of_hexWord hw]
      simp [hexBytes]
    | cons hw' hrest =>
      rw [List.intercalate_cons_cons,List.filter_append,List.filter_append,hfilter hw]
      have hcolon : List.filter (fun x : BitVec 8 => decide (x ≠ 0x3a)) [0x3a] = [] := by decide
      rw [hcolon,List.append_nil,hexBytes_of_hexWord hw,ih]
      rfl

/-- The grammar, by way of the parts that the code splits a text into. -/
theorem spells_iff {text : Text} {cwds : RateP} :
    Spells text cwds ↔ ((parts text).mapM hexWord).bind toRateP = some cwds := by
  constructor
  · rintro ⟨groups,rfl,hall⟩
    have hlen : groups.length = 6 := by
      rw [(length_of_words hall).1,Vector.length_toList]
    have hcolon : ∀ group ∈ groups, 0x3a ∉ group := by
      intro group hgroup
      obtain ⟨i,hi,rfl⟩ := List.getElem_of_mem hgroup
      exact not_mem_hexWord (hall.get hi (by simpa using hlen ▸ hi))
    have hne : groups ≠ [] := List.ne_nil_of_length_pos (by omega)
    rw [parts_eq_splitOn,List.splitOn_intercalate _ hcolon hne,mapM_of_forall₂ hall]
    exact dif_pos (Vector.length_toList ..)
  · intro h
    obtain ⟨words,hmap,hwords⟩ := Option.bind_eq_some_iff.mp h
    unfold toRateP at hwords
    split_ifs at hwords with h6
    obtain rfl := Option.some.inj hwords
    refine ⟨parts text,?_,forall₂_of_mapM hmap⟩
    rw [parts_eq_splitOn,List.intercalate_splitOn]

theorem Spells.grouped {text : Text} {cwds : RateP} (h : Spells text cwds) : Grouped text := by
  obtain ⟨words,hmap,hwords⟩ := Option.bind_eq_some_iff.mp (spells_iff.mp h)
  unfold toRateP at hwords
  split_ifs at hwords with h6
  obtain ⟨hlen,-,h4⟩ := length_of_words (forall₂_of_mapM hmap)
  exact ⟨hlen.trans h6,h4⟩

theorem wire_of_spells {text : Text} {cwds : RateP} (h : Spells text cwds)
    (channel direction : Byte) (hchannel : channel ≤ 3) :
    ∃ p q bytes, setupRequestRateP channel cwds direction = .ok p ∧ p.writeTo = .ok (q,bytes) ∧
      (bytes.drop 5).take 13 = 0x0a::spelledBytes text := by
  obtain ⟨groups,rfl,hall⟩ := h
  obtain ⟨p,q,hnew,-,-,hwrite,-⟩ := Outgoing.new_writeTo (.setupRateP channel cwds direction) hchannel
  refine ⟨p,q,_,hnew,hwrite,?_⟩
  rw [spelledBytes_intercalate hall]
  have hlen : (0x0a::cwds.toList.flatMap htons).length = 13 := by
    rw [List.length_cons,flatMap_htons_length,Vector.length_toList]
  have hpayload : ∀ tail : List Byte, ((0x0a::cwds.toList.flatMap htons) ++ tail).take 13 =
      0x0a::cwds.toList.flatMap htons := by
    intro tail
    exact List.take_left' hlen
  rw [← hpayload ([0x0b,direction] ++ [parityByte,_]),← List.append_assoc]
  rfl

/-- The lengths are all that the parser insists on. -/
theorem parseRatePString_isSome (fresh : RateP) (text : Text) :
    (parseRatePString fresh text).isSome ↔ Grouped text := by
  unfold parseRatePString Grouped
  have htext := length_parts text
  constructor
  · intro h
    split_ifs at h with hlen hparts hall
    · cases h
    · exact ⟨hparts,by simpa using hall⟩
    · cases h
    · cases h
  · rintro ⟨hparts,hall⟩
    have hsum : ((parts text).map List.length).sum = 4*(parts text).length := by
      rw [List.map_congr_left hall,List.map_const',List.sum_replicate_nat,Nat.mul_comm]
    rw [if_neg (by omega),dif_pos hparts,if_pos (by simpa using hall)]
    rfl

/-- The parser reads the grammar exactly on texts that are not made of six groups of four, or whose
groups are hexadecimal numbers that fit a `short`. -/
theorem readsGrammar_iff (fresh : RateP) (text : Text) :
    ReadsGrammar fresh text ↔
      (Grouped text → ∃ cwds, Spells text cwds ∧ ∀ w ∈ cwds.toList, w.toNat < 2^15) := by
  constructor
  · intro h hgrouped
    obtain ⟨cwds,hcwds⟩ := h.accepts.mp ((parseRatePString_isSome fresh text).mpr hgrouped)
    obtain ⟨read,hread,hfits⟩ := parseRatePString_of_usable fresh (spells_iff.mp hcwds)
    refine ⟨cwds,hcwds,hfits.mp ?_⟩
    exact Option.some.inj (hread.symm.trans (h.words cwds hcwds))
  · intro h
    have hwords : ∀ cwds, Spells text cwds → parseRatePString fresh text = some cwds := by
      intro cwds hcwds
      obtain ⟨cwds',hcwds',hfits⟩ := h hcwds.grouped
      obtain rfl := Option.some.inj ((spells_iff.mp hcwds).symm.trans (spells_iff.mp hcwds'))
      obtain ⟨read,hread,heq⟩ := parseRatePString_of_usable fresh (spells_iff.mp hcwds)
      rw [hread,heq.mpr hfits]
    refine ⟨?_,hwords,?_⟩
    · rw [parseRatePString_isSome]
      constructor
      · intro hgrouped
        obtain ⟨cwds,hcwds,-⟩ := h hgrouped
        exact ⟨cwds,hcwds⟩
      · rintro ⟨cwds,hcwds⟩
        exact hcwds.grouped
    · intro read hread
      have hgrouped := (parseRatePString_isSome fresh text).mp (by rw [hread]; rfl)
      obtain ⟨cwds,hcwds,-⟩ := h hgrouped
      obtain rfl := Option.some.inj (hread.symm.trans (hwords cwds hcwds))
      exact wire_of_spells hcwds

/-- `ffff:0000:0000:0000:0000:0000`. -/
def allOnes : Text :=
  [0x66,0x66,0x66,0x66,0x3a,0x30,0x30,0x30,0x30,0x3a,0x30,0x30,0x30,0x30,0x3a,0x30,0x30,0x30,0x30,
    0x3a,0x30,0x30,0x30,0x30,0x3a,0x30,0x30,0x30,0x30]

/-- A word with its highest bit set is read as `7fff`. -/
theorem not_readsGrammar_allOnes : ¬ ∀ (fresh : RateP) (text : Text), ReadsGrammar fresh text := by
  intro h
  have hspells : Spells allOnes #v[0xffff,0,0,0,0,0] := spells_iff.mpr (by decide)
  have hwords := (h (.replicate 6 0) allOnes).words _ hspells
  exact absurd hwords (by decide)

end CodecServer.Ambe3K
