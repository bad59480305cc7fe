import Mathlib.Data.List.Basic

/-! Buffered input: each read delivers a block, and what has been read but is not used is backed up
for the next time. -/
namespace CodecServer

/-- The blocks that were read, the bytes of them that were backed up, and the blocks that there are
to be read. -/
structure InStream (α : Type) where
  read : List (List α) := []
  backup : List α := []
  blocks : List (List α) := []

namespace InStream
variable {α : Type}

/-- The bytes that can be had. -/
def content (s : InStream α) : List α := s.backup ++ s.blocks.flatten

def advanceFrom (read : List (List α)) (backup : List α) (n : ℕ) : List (List α) → InStream α
  | [] => {read := read, backup := backup.drop n}
  | block::blocks =>
    if n ≤ backup.length then {read := read, backup := backup.drop n, blocks := block::blocks}
    else advanceFrom (read ++ [block]) block (n-backup.length) blocks

/-- A number of bytes is used. A block is read when the bytes before it are not enough. -/
def advance (s : InStream α) (n : ℕ) : InStream α := advanceFrom s.read s.backup n s.blocks

/-- What has been used; the last block that was read was needed. -/
structure Tracks (s : InStream α) (used : List α) : Prop where
  flatten : s.read.flatten = used ++ s.backup
  needed : ∀ init block, s.read = init ++ [block] → init.flatten.length < used.length

theorem content_advanceFrom (read : List (List α)) (backup : List α) (n : ℕ)
    (blocks : List (List α)) :
    (advanceFrom read backup n blocks).content = (backup ++ blocks.flatten).drop n := by
  induction blocks generalizing read backup n with
  | nil => simp [advanceFrom,content]
  | cons block blocks ih =>
    unfold advanceFrom
    split_ifs with hn
    · rw [content,List.drop_append_of_le_length hn]
    · have hused : backup.drop n = [] := List.drop_eq_nil_of_le (by omega)
      rw [ih,List.flatten_cons,List.drop_append (i := n),hused,List.nil_append]

theorem content_advance (s : InStream α) (n : ℕ) : (s.advance n).content = s.content.drop n :=
  content_advanceFrom _ _ _ _

theorem blocks_advanceFrom (read : List (List α)) (backup : List α) (n : ℕ)
    (blocks : List (List α)) :
    (advanceFrom read backup n blocks).read ++ (advanceFrom read backup n blocks).blocks =
      read ++ blocks := by
  induction blocks generalizing read backup n with
  | nil => rfl
  | cons block blocks ih =>
    unfold advanceFrom
    split_ifs with hn
    · rfl
    · rw [ih,List.append_assoc,List.singleton_append]

/-- No block is lost. -/
theorem blocks_advance (s : InStream α) (n : ℕ) :
    (s.advance n).read ++ (s.advance n).blocks = s.read ++ s.blocks :=
  blocks_advanceFrom _ _ _ _

theorem advanceFrom_add (read : List (List α)) (backup : List α) (m n : ℕ)
    (blocks : List (List α)) :
    advanceFrom read backup (m+n) blocks = (advanceFrom read backup m blocks).advance n := by
  induction blocks generalizing read backup m with
  | nil =>
    simp only [advance,advanceFrom,List.drop_drop]
  | cons block blocks ih =>
    by_cases hm : m ≤ backup.length
    · rw [advanceFrom,advanceFrom,if_pos hm,advance,advanceFrom,List.length_drop]
      by_cases hmn : m+n ≤ backup.length
      · rw [if_pos hmn,if_pos (by omega),List.drop_drop]
      · rw [if_neg hmn,if_neg (by omega)]
        congr 1
        omega
    · rw [advanceFrom,advanceFrom,if_neg hm,if_neg (by omega),← ih]
      congr 1
      omega

theorem advance_advance (s : InStream α) (m n : ℕ) :
    (s.advance m).advance n = s.advance (m+n) :=
  (advanceFrom_add _ _ _ _ _).symm

theorem tracks_advanceFrom {read : List (List α)} {backup used : List α} {n : ℕ}
    {blocks : List (List α)} (hflatten : read.flatten = used ++ backup)
    (hneeded : ∀ init block, read = init ++ [block] → init.flatten.length < used.length+n)
    (hn : n ≤ (backup ++ blocks.flatten).length) :
    (advanceFrom read backup n blocks).Tracks (used ++ (backup ++ blocks.flatten).take n) := by
  induction blocks generalizing read backup used n with
  | nil =>
    rw [List.flatten_nil,List.append_nil] at hn ⊢
    refine ⟨?_,fun init block hread => ?_⟩
    · rw [advanceFrom,List.append_assoc,List.take_append_drop,hflatten]
    · rw [List.length_append,List.length_take_of_le hn]
      exact hneeded init block hread
  | cons block blocks ih =>
    unfold advanceFrom
    split_ifs with hle
    · refine ⟨?_,fun init block hread => ?_⟩
      · rw [List.take_append_of_le_length hle,List.append_assoc,List.take_append_drop,hflatten]
      · rw [List.length_append,List.length_take_of_le hn]
        exact hneeded init block hread
    · rw [List.flatten_cons,List.take_append,List.take_of_length_le (by omega),← List.append_assoc]
      apply ih
      · rw [List.flatten_append,hflatten,List.flatten_singleton]
      · intro init block' hread
        obtain ⟨rfl,-⟩ := List.append_inj' hread rfl
        rw [hflatten,List.length_append]
        omega
      · rw [List.flatten_cons,List.length_append] at hn
        omega

/-- Bytes that are there are used in order. -/
theorem Tracks.advance {s : InStream α} {used : List α} (h : s.Tracks used) {n : ℕ}
    (hn : n ≤ s.content.length) : (s.advance n).Tracks (used ++ s.content.take n) := by
  apply tracks_advanceFrom h.flatten
  · intro init block hread
    have := h.needed init block hread
    omega
  · exact hn

/-- If the bytes before a block were not enough for what has been used, the block was read. -/
theorem Tracks.blocks_eq_nil {s : InStream α} {used : List α} (h : s.Tracks used)
    {init : List (List α)} {block : List α} (hblocks : s.read ++ s.blocks = init ++ [block])
    (hinit : init.flatten.length < used.length) : s.blocks = [] := by
  by_contra hne
  obtain ⟨front,last,hlast⟩ := (List.eq_nil_or_concat' s.blocks).resolve_left hne
  rw [hlast,← List.append_assoc] at hblocks
  obtain ⟨rfl,-⟩ := List.append_inj' hblocks rfl
  rw [List.flatten_append,List.length_append,h.flatten,List.length_append] at hinit
  omega

end InStream
end CodecServer
