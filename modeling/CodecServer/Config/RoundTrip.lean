import CodecServer.Config

/-! A configuration that is printed and read again. -/
namespace CodecServer.Config
open CodecServer.Numeral

/-- The map of maps that a configuration stands for; the order of sections and keys is not part of
it. -/
def toMap (config : Config) (name : Text) : Option (Text → Option Text) :=
  (config.lookup name).map fun section' key => section'.lookup key

def header (name : Text) : Text := openBracket::name ++ [closeBracket]

def assignment (key value : Text) : Text := key ++ equalsSign::value

/-- The lines of a section. -/
def printSection (e : Sigma fun _ : Text => Section) : List Text :=
  header e.1::e.2.entries.map fun a => assignment a.1 a.2

/-- The sections and their keys, printed in the order in which they are listed. -/
def printed (config : Config) : List Text := config.entries.flatMap printSection

/-- A blank line, or a comment. -/
def Skipped (line : Text) : Prop := ∀ first ∈ line.head?, first ∈ commentChars

theorem skipped_nil : Skipped [] := by
  intro first hfirst
  cases hfirst

theorem skipped_cons (first : BitVec 8) (line : Text) :
    first ∈ commentChars ↔ Skipped (first::line) := by
  simp [Skipped]

theorem skipped_iff (line : Text) :
    (line.head?.all fun first => commentChars.contains first) = true ↔ Skipped line := by
  cases line with
  | nil => exact iff_of_true rfl skipped_nil
  | cons first line => simp [← skipped_cons]

instance (line : Text) : Decidable (Skipped line) := decidable_of_iff _ (skipped_iff line)

/-- The lines of a file, each with a newline. -/
def unlines (lines : List Text) : Text := lines.flatMap (· ++ [newline])

/-- A key that is neither the start of a header nor of a comment, on one line with its value. -/
structure Assignable (key value : Text) : Prop where
  first : ∀ c ∈ key.head?, c ≠ openBracket ∧ c ∉ commentChars
  key : newline ∉ key ∧ equalsSign ∉ key
  value : newline ∉ value

/-- The names and keys of a configuration, and its values, can be told apart. -/
structure Printable (config : Config) : Prop where
  names : ∀ e ∈ config.entries, e.1 ≠ [] ∧ newline ∉ e.1
  assignments : ∀ e ∈ config.entries, ∀ a ∈ e.2.entries, Assignable a.1 a.2

/-- The names that are listed for a type are those of its sections, each once, and lead to them. -/
structure Lists (config : Config) (sections : Text → Option (Text → Option Text)) (type : Text) :
    Prop where
  once : (config.getSections type).Nodup
  listed : ∀ n, n ∈ config.getSections type ↔ (sections (type ++ [0x3a] ++ n)).isSome
  found : ∀ n content, sections (type ++ [0x3a] ++ n) = some content →
    (fun key => (config.getSection (type ++ [0x3a] ++ n)).lookup key) = content

section Lines
variable {line : Text} {lines : List Text}

/-- The loop takes one line out of the file after the other. -/
theorem getlines_eq_cons {input rest : Text} (h : getline input = some (line,rest)) :
    getlines input = line::getlines rest := by
  induction input generalizing line rest with
  | nil => cases h
  | cons c input ih =>
    simp only [getline,Option.some.injEq,Prod.mk.injEq] at h
    obtain ⟨rfl,rfl⟩ := h
    by_cases hc : c = newline
    · simp [getlines,hc]
    · rw [getlines,if_neg hc]
      cases input with
      | nil => simp [getlines,hc]
      | cons b input =>
        have hnext : getlines (b::input) = (b::input).takeWhile (· ≠ newline)::
            getlines (((b::input).dropWhile (· ≠ newline)).drop 1) := ih rfl
        rw [hnext]
        simp [hc]

/-- The tests of the loop on the characters of a line. -/
theorem forall_ne_newline (hline : newline ∉ line) : ∀ c ∈ line, decide (c ≠ newline) = true := by
  intro c hc
  simpa using fun h : c = newline => hline (h ▸ hc)

theorem getlines_append (hline : newline ∉ line) (rest : Text) :
    getlines (line ++ newline::rest) = line::getlines rest := by
  apply getlines_eq_cons
  cases line with
  | nil => simp [getline]
  | cons c line =>
    have hchar := forall_ne_newline hline
    rw [List.cons_append,getline,← List.cons_append,List.takeWhile_append_of_pos hchar,
      List.dropWhile_append_of_pos hchar]
    simp

theorem getlines_of_line (hne : line ≠ []) (hline : newline ∉ line) : getlines line = [line] := by
  obtain ⟨c,rest,rfl⟩ := List.exists_cons_of_ne_nil hne
  have hchar := forall_ne_newline hline
  have hget : getline (c::rest) = some (c::rest,[]) := by
    rw [getline,List.takeWhile_eq_self_iff.mpr hchar,List.dropWhile_eq_nil_iff.mpr hchar]
    rfl
  exact getlines_eq_cons hget

theorem getlines_unlines (hlines : ∀ line ∈ lines, newline ∉ line) (rest : Text) :
    getlines (unlines lines ++ rest) = lines ++ getlines rest := by
  induction lines with
  | nil => rfl
  | cons line lines ih =>
    obtain ⟨hline,hrest⟩ := List.forall_mem_cons.mp hlines
    calc getlines (unlines (line::lines) ++ rest)
        = getlines (line ++ newline::(unlines lines ++ rest)) := by simp [unlines]
      _ = line::getlines (unlines lines ++ rest) := getlines_append hline _
      _ = line::lines ++ getlines rest := by rw [ih hrest,List.cons_append]

/-- The newline of the last line may be missing. -/
theorem filter_getlines {text : Text} (hlines : ∀ line ∈ lines, newline ∉ line)
    (htext : text = unlines lines ∨ text ++ [newline] = unlines lines) :
    (getlines text).filter (¬ Skipped ·) = lines.filter (¬ Skipped ·) := by
  rcases htext with rfl | htext
  · have h := getlines_unlines hlines []
    rw [List.append_nil] at h
    rw [h,getlines,List.append_nil]
  · rcases List.eq_nil_or_concat lines with rfl | ⟨before,last,rfl⟩
    · simp [unlines] at htext
    · rw [List.concat_eq_append] at hlines htext ⊢
      have hbefore : ∀ line ∈ before, newline ∉ line := fun line h => hlines line (by simp [h])
      have hlast : newline ∉ last := hlines last (by simp)
      have hunlines : unlines (before ++ [last]) = unlines before ++ last ++ [newline] := by
        simp [unlines]
      obtain rfl : text = unlines before ++ last := by
        rw [hunlines] at htext
        exact List.append_cancel_right htext
      rw [getlines_unlines hbefore,List.filter_append,List.filter_append]
      congr 1
      cases last with
      | nil => simp [getlines,skipped_nil]
      | cons c last => rw [getlines_of_line (List.cons_ne_nil c last) hlast]

end Lines

section Read
variable {r : Reader} {line : Text}

/-- The tests of the reader for a line that is blank or a comment. -/
theorem readLine_skipped (h : Skipped line) : r.readLine line = r := by
  cases line with
  | nil => rfl
  | cons c line =>
    have hc := (skipped_cons c line).mpr h
    rw [Reader.readLine,List.head?_cons]
    exact if_pos hc

theorem foldl_readLine_filter (r : Reader) (lines : List Text) :
    lines.foldl Reader.readLine r = (lines.filter (¬ Skipped ·)).foldl Reader.readLine r := by
  induction lines generalizing r with
  | nil => rfl
  | cons line lines ih =>
    by_cases h : Skipped line
    · rw [List.filter_cons_of_neg (by simpa using h),List.foldl_cons,readLine_skipped h]
      exact ih r
    · rw [List.filter_cons_of_pos (by simpa using h),List.foldl_cons,List.foldl_cons]
      exact ih _

/-- A header ends the section before it. -/
theorem readLine_header (name : Text) : r.readLine (header name) =
    {sections := r.commit, currentMap := ∅, currentName := name} := by
  have hlast : (header name).getLast? = some closeBracket := by
    rw [header,List.getLast?_append]
    rfl
  have hname : ((header name).drop 1).take ((header name).length-2) = name := by
    simp [header]
  rw [Reader.readLine,hlast,hname]
  rfl

theorem idxOf?_append_cons {l : Text} {c : BitVec 8} (h : c ∉ l) (rest : Text) :
    (l ++ c::rest).idxOf? c = some l.length := by
  induction l with
  | nil => simp [List.idxOf?_cons]
  | cons b l ih =>
    obtain ⟨hb,hl⟩ := not_or.mp (mt List.mem_cons.mpr h)
    rw [List.cons_append,List.idxOf?_cons,if_neg (by simpa using Ne.symm hb),ih hl]
    rfl

/-- What comes before the first equals sign is the key, whatever is in the value. -/
theorem readLine_assignment {key value : Text} (h : Assignable key value) :
    r.readLine (assignment key value) = {r with currentMap := r.currentMap.insert key value} := by
  have hpos : (assignment key value).idxOf? equalsSign = some key.length :=
    idxOf?_append_cons h.key.2 value
  have htake : (assignment key value).take key.length = key := List.take_left
  have hdrop : (assignment key value).drop (key.length+1) = value := by
    rw [assignment,← List.drop_drop,List.drop_left]
    rfl
  have hfirst : ∃ first, (assignment key value).head? = some first ∧
      first ∉ commentChars ∧ first ≠ openBracket := by
    cases key with
    | nil => exact ⟨equalsSign,rfl,by decide,by decide⟩
    | cons c key =>
      obtain ⟨hopen,hcomment⟩ := h.first c rfl
      exact ⟨c,rfl,hcomment,hopen⟩
  obtain ⟨first,hhead,hcomment,hopen⟩ := hfirst
  rw [Reader.readLine,hhead]
  simp only [if_neg hcomment,hopen,false_and,if_false,hpos,htake,hdrop]

theorem foldl_readLine_assignments {l : List (Sigma fun _ : Text => Text)}
    (h : ∀ a ∈ l, Assignable a.1 a.2) (r : Reader) :
    (l.map fun a => assignment a.1 a.2).foldl Reader.readLine r =
      {r with currentMap := r.currentMap.insertAll l} := by
  induction l generalizing r with
  | nil => rfl
  | cons a l ih =>
    obtain ⟨ha,hrest⟩ := List.forall_mem_cons.mp h
    rw [List.map_cons,List.foldl_cons,readLine_assignment ha,ih hrest]
    rfl

/-- A section is read line by line. -/
def reread (content : Section) : Section := Dictionary.insertAll ∅ content.entries

/-- Printed sections are added to what has been read, the last one by the end of the file. -/
theorem commit_foldl_printed {l : List (Sigma fun _ : Text => Section)}
    (hnames : ∀ e ∈ l, e.1 ≠ []) (h : ∀ e ∈ l, ∀ a ∈ e.2.entries, Assignable a.1 a.2)
    (r : Reader) : ((l.flatMap printSection).foldl Reader.readLine r).commit =
      r.commit.insertAll (l.map (Sigma.map id fun _ => reread)) := by
  induction l generalizing r with
  | nil => rfl
  | cons e l ih =>
    obtain ⟨hname,hnames⟩ := List.forall_mem_cons.mp hnames
    obtain ⟨he,hrest⟩ := List.forall_mem_cons.mp h
    rw [List.flatMap_cons,List.foldl_append,printSection,List.foldl_cons,readLine_header,
      foldl_readLine_assignments he,ih hnames hrest,Reader.commit,if_neg hname]
    rfl

theorem toMap_read {config : Config} (hconfig : config.Printable) {text : Text}
    (htext : (getlines text).filter (¬ Skipped ·) = config.printed) :
    (read text).toMap = config.toMap := by
  have hread : read text =
      Dictionary.insertAll ∅ (config.entries.map (Sigma.map id fun _ => reread)) := by
    rw [read,foldl_readLine_filter,htext,printed,commit_foldl_printed
      (fun e he => (hconfig.names e he).1) hconfig.assignments]
    rfl
  let entries : List (Sigma fun _ : Text => Section) :=
    config.entries.map (Sigma.map id fun _ => reread)
  have hnodup : entries.NodupKeys := config.nodupKeys.map₂ fun _ => reread
  funext name
  rw [toMap,toMap,hread,Dictionary.lookup_insertAll hnodup,AList.lookup_empty,Option.or_none,
    List.dlookup_map₂,Option.map_map]
  congr 1
  funext content key
  exact Dictionary.lookup_insertAll_entries content key

end Read

/-- A name that starts with the type and a colon, and the rest of it. -/
theorem getSections_filter_iff (type name n : Text) :
    (if name.take (type ++ [0x3a]).length = type ++ [0x3a] then
      some (name.drop (type ++ [0x3a]).length) else none) = some n ↔
    name = type ++ [0x3a] ++ n := by
  constructor
  · intro h
    split_ifs at h with htake
    calc name = name.take (type ++ [0x3a]).length ++ name.drop (type ++ [0x3a]).length :=
          (List.take_append_drop _ name).symm
      _ = type ++ [0x3a] ++ n := by rw [htake,Option.some.inj h]
  · rintro rfl
    rw [List.take_left,if_pos rfl,List.drop_left]

theorem lists_toMap (config : Config) (type : Text) : Lists config config.toMap type where
  once := by
    apply List.Nodup.filterMap _ config.keys_nodup
    intro name name' n hn hn'
    rw [Option.mem_def,getSections_filter_iff] at hn hn'
    rw [hn,hn']
  listed := by
    intro n
    rw [getSections,List.mem_filterMap,toMap,Option.isSome_map,AList.lookup_isSome,AList.mem_keys]
    constructor
    · rintro ⟨name,hname,hn⟩
      rwa [← (getSections_filter_iff type name n).mp hn]
    · intro hname
      exact ⟨_,hname,(getSections_filter_iff type _ n).mpr rfl⟩
  found := by
    intro n content h
    obtain ⟨section',hlookup,rfl⟩ := Option.map_eq_some_iff.mp h
    rw [getSection,hlookup]
    rfl

section Printed
variable {config : Config}

/-- What is printed of a configuration is on one line each. -/
theorem newline_not_mem_printed (h : config.Printable) : ∀ line ∈ config.printed, newline ∉ line := by
  intro line hline
  obtain ⟨e,he,hline⟩ := List.mem_flatMap.mp hline
  rcases List.mem_cons.mp hline with rfl | hline
  · have hname := (h.names e he).2
    simp only [header,List.mem_append,List.mem_cons,List.not_mem_nil,or_false,not_or]
    exact ⟨⟨by decide,hname⟩,by decide⟩
  · obtain ⟨a,ha,rfl⟩ := List.mem_map.mp hline
    obtain ⟨-,hkey,hvalue⟩ := h.assignments e he a ha
    simp only [assignment,List.mem_append,List.mem_cons,not_or]
    exact ⟨hkey.1,by decide,hvalue⟩

/-- A configuration is read as it was printed, with blank lines and comments anywhere; the sections
of every type are listed, and found under their names. -/
theorem read_printed {lines : List Text} {text : Text} (h : config.Printable)
    (hprinted : lines.filter (¬ Skipped ·) = config.printed)
    (hcomments : ∀ line ∈ lines, Skipped line → newline ∉ line)
    (htext : text = unlines lines ∨ text ++ [newline] = unlines lines) :
    (read text).toMap = config.toMap ∧ ∀ type, Lists (read text) config.toMap type := by
  have hlines : ∀ line ∈ lines, newline ∉ line := by
    intro line hline
    by_cases hskipped : Skipped line
    · exact hcomments line hline hskipped
    · apply newline_not_mem_printed h
      rw [← hprinted]
      exact List.mem_filter.mpr ⟨hline,by simpa using hskipped⟩
  have hread := toMap_read h ((filter_getlines hlines htext).trans hprinted)
  refine ⟨hread,?_⟩
  intro type
  rw [← hread]
  exact lists_toMap (read text) type

/-- A section with a value that is made of special characters and with an empty key, between a
comment and a section without keys. -/
theorem read_printed_special :
    toMap (read (unlines [[0x3b],header [0x61,0x3a,0x62],assignment [0x6b] [0x5d,0x3d,0x3b],[],
      assignment [] [],header [0x61,0x3a],[0x23]])) =
      toMap ((AList.singleton [0x61,0x3a] ∅).insert [0x61,0x3a,0x62]
        ((AList.singleton [] []).insert [0x6b] [0x5d,0x3d,0x3b])) := by
  refine (read_printed ⟨by decide,?_⟩ (by decide) (by decide) (Or.inl rfl)).1
  intro e he a ha
  rcases List.mem_pair.mp he with rfl | rfl
  · rcases List.mem_pair.mp ha with rfl | rfl
    · exact ⟨by decide,by decide,by decide⟩
    · exact ⟨by decide,by decide,by decide⟩
  · cases ha

end Printed
end CodecServer.Config
