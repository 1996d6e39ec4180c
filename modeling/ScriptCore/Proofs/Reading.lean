import Mathlib.Data.List.Infix
import Mathlib.Data.List.Nodup
import Mathlib.Logic.Relation
import ScriptCore.Json.Reader
import ScriptCore.Proofs.ScalarOrder

/-!
# What is read from JSON texts

Whatever is read at the beginning of a text, a rest of the text stays.  In each object that is read
the names are in increasing order, and an array has no more items than its text has characters.  So
texts are read as one relies on when commands are carried out.
-/

namespace ScriptCore.Json

open Relation

/-- The documents directly inside a document. -/
def parts : Json → List Json
  | array items => items
  | object members => members.map Prod.snd
  | _ => []

/-- One document is another one or is inside it, at any depth. -/
def Within : Json → Json → Prop :=
  ReflTransGen fun part whole => part ∈ whole.parts

/-- The names in each object are different. -/
def Distinct (json : Json) : Prop :=
  ∀ members, Within (object members) json → (members.map Prod.fst).Nodup

/-- What one relies on of a reader of documents: the names in each object are different, and an
array has no more items than its text has characters. -/
structure Parses (parse? : String → Option Json) : Prop where
  distinct : ∀ {text json}, parse? text = some json → json.Distinct
  length_le : ∀ {text items}, parse? text = some (array items) → items.length ≤ text.length

theorem Distinct.of_mem_parts {part whole : Json} (distinct : whole.Distinct)
    (member : part ∈ whole.parts) : part.Distinct :=
  fun members within => distinct members (within.tail member)

theorem distinct_of_parts {whole : Json}
    (own : ∀ members, whole = object members → (members.map Prod.fst).Nodup)
    (parts : ∀ part ∈ whole.parts, part.Distinct) : whole.Distinct := by
  intro members within
  rcases ReflTransGen.cases_tail within with same | ⟨part, deeper, inside⟩
  · exact own members same
  · exact parts part inside members deeper

section Rests

variable {input rest : List Char}

theorem skipBlanks_suffix (input : List Char) : skipBlanks input <:+ input :=
  List.dropWhile_suffix _

theorem suffix_of_readExponent {negative : Bool} {significand : Nat} {start : Int}
    {number : Number} (read : readExponent negative significand start input = some (number, rest)) :
    rest <:+ input := by
  unfold readExponent at read
  split at read
  rename_i lowers text signed
  have unsigned : text <:+ input := by
    split at signed <;> cases signed
    · exact List.suffix_cons _ _
    · exact List.suffix_cons _ _
    · exact List.suffix_refl _
  refine List.IsSuffix.trans ?_ unsigned
  dsimp only at read
  split at read
  · cases read
  · split at read
    · split at read
      · cases read
      · cases read
        exact List.dropWhile_suffix _
    · obtain ⟨_, _, same⟩ := Option.map_eq_some_iff.mp read
      cases same
      exact List.dropWhile_suffix _

theorem suffix_of_finishDouble {negative : Bool} {significand : Nat} {exponent : Int}
    {number : Number}
    (read : finishDouble negative significand exponent input = some (number, rest)) :
    rest <:+ input := by
  unfold finishDouble at read
  split at read
  · exact (suffix_of_readExponent read).trans (List.suffix_cons _ _)
  · exact (suffix_of_readExponent read).trans (List.suffix_cons _ _)
  · obtain ⟨_, _, same⟩ := Option.map_eq_some_iff.mp read
    cases same
    exact List.suffix_refl _

theorem suffix_of_readUnsigned {negative : Bool} {number : Number}
    (read : readUnsigned negative input = some (number, rest)) : rest <:+ input := by
  unfold readUnsigned at read
  dsimp only at read
  split at read
  · cases read
  · have behind : input.dropWhile Char.isDigit <:+ input := List.dropWhile_suffix _
    refine List.IsSuffix.trans ?_ behind
    generalize input.dropWhile Char.isDigit = unread at read
    split at read
    · split at read
      · cases read
      · exact ((suffix_of_finishDouble read).trans (List.dropWhile_suffix _)).trans
          (List.suffix_cons _ _)
    · exact suffix_of_finishDouble read
    · exact suffix_of_finishDouble read
    · split at read
      · cases read
        exact List.suffix_refl _
      · exact suffix_of_finishDouble read

theorem suffix_of_readNumber {number : Number} (read : readNumber input = some (number, rest)) :
    rest <:+ input := by
  unfold readNumber at read
  split at read
  · exact (suffix_of_readUnsigned read).trans (List.suffix_cons _ _)
  · exact suffix_of_readUnsigned read

theorem suffix_of_readWord {word : String} {json given : Json}
    (read : readWord word json input = some (given, rest)) : given = json ∧ rest <:+ input := by
  unfold readWord at read
  split at read
  · cases read
    exact ⟨rfl, List.drop_suffix _ _⟩
  · cases read

/-- A character in front of those that are read leaves the rest as it is. -/
theorem exists_readChars_of_cons {char : Char} {chars : List Char}
    (read : (do
      let (chars, rest) ← readChars input
      return (char :: chars, rest)) = some (chars, rest)) :
    ∃ further, readChars input = some (further, rest) := by
  obtain ⟨⟨further, unread⟩, found, same⟩ := Option.bind_eq_some_iff.mp read
  cases same
  exact ⟨further, found⟩

theorem suffix_of_readChars {chars : List Char} (read : readChars input = some (chars, rest)) :
    rest <:+ input := by
  fun_induction readChars input generalizing chars rest with
  | case1 => cases read
  | case2 =>
      cases read
      exact List.suffix_cons _ _
  | case3 first second third fourth unread ihPair ih =>
      obtain ⟨unit, -, read⟩ := Option.bind_eq_some_iff.mp read
      have escaped : unread <:+ '\\' :: 'u' :: first :: second :: third :: fourth :: unread :=
        List.suffix_append ['\\', 'u', first, second, third, fourth] unread
      refine List.IsSuffix.trans ?_ escaped
      split at read
      · cases read
      · split at read
        · split at read
          · rename_i fifth sixth seventh eighth unread _
            obtain ⟨trailing, -, read⟩ := Option.bind_eq_some_iff.mp read
            split at read
            · obtain ⟨further, read⟩ := exists_readChars_of_cons read
              exact (ihPair read).trans
                (List.suffix_append ['\\', 'u', fifth, sixth, seventh, eighth] unread)
            · cases read
          · cases read
        · obtain ⟨further, read⟩ := exists_readChars_of_cons read
          exact ih read
  | case4 letter unread _ ih =>
      obtain ⟨char, -, read⟩ := Option.bind_eq_some_iff.mp read
      obtain ⟨further, read⟩ := exists_readChars_of_cons read
      exact (ih read).trans (List.suffix_append ['\\', letter] unread)
  | case5 => cases read
  | case6 char unread _ _ _ _ ih =>
      obtain ⟨further, read⟩ := exists_readChars_of_cons read
      exact (ih read).trans (List.suffix_cons _ _)

theorem token_suffix {token : Char} (found : skipBlanks input = token :: rest) :
    token :: rest <:+ input := by
  rw [← found]
  exact skipBlanks_suffix input

theorem suffix_of_token {token : Char} (found : skipBlanks input = token :: rest) :
    rest <:+ input :=
  (List.suffix_cons token rest).trans (token_suffix found)

end Rests

section Members

variable {members : List (String × Json)} {name : String} {json : Json}

theorem mem_of_mem_putMember {member : String × Json}
    (present : member ∈ putMember members name json) :
    member = (name, json) ∨ member ∈ members := by
  induction members with
  | nil => exact Or.inl (List.mem_singleton.mp present)
  | cons first rest ih =>
      obtain ⟨other, old⟩ := first
      rw [putMember] at present
      split at present
      · exact List.mem_cons.mp present
      · exact (List.mem_cons.mp present).imp_right (List.mem_cons_of_mem _)
      · rcases List.mem_cons.mp present with rfl | later
        · exact Or.inr List.mem_cons_self
        · exact (ih later).imp_right (List.mem_cons_of_mem _)

/-- The members of an object are in the order of their names, of which none comes twice. -/
def Ordered (members : List (String × Json)) : Prop :=
  members.Pairwise fun earlier later => Text.scalars earlier.1 < Text.scalars later.1

theorem Ordered.put (ordered : Ordered members) (name : String) (json : Json) :
    Ordered (putMember members name json) := by
  induction members with
  | nil => exact List.pairwise_singleton _ _
  | cons first rest ih =>
      obtain ⟨other, old⟩ := first
      obtain ⟨least, others⟩ := List.pairwise_cons.mp ordered
      rw [putMember]
      split
      · rename_i less
        have before := Text.compare_eq_lt_iff.mp less
        refine List.pairwise_cons.mpr ⟨fun later member => ?_, ordered⟩
        rcases List.mem_cons.mp member with rfl | further
        · exact before
        · exact lt_trans before (least later further)
      · rename_i same
        obtain rfl := Text.compare_eq_eq_iff.mp same
        exact List.pairwise_cons.mpr ⟨least, others⟩
      · rename_i more
        have behind := Text.bytes_lt_iff.mp (Text.compare_eq_gt_iff.mp more)
        refine List.pairwise_cons.mpr ⟨fun later member => ?_, ih others⟩
        rcases mem_of_mem_putMember member with rfl | further
        · exact behind
        · exact least later further

theorem Ordered.nodup (ordered : Ordered members) : (members.map Prod.fst).Nodup := by
  refine List.pairwise_map.mpr (List.Pairwise.imp (fun {earlier later} less same => ?_) ordered)
  exact lt_irrefl _ (same ▸ less)

/-- The members of an object are in order, and the names in the objects inside them are
different. -/
structure Apart (members : List (String × Json)) : Prop where
  ordered : Ordered members
  documents : ∀ member ∈ members, member.2.Distinct

theorem Apart.nil : Apart [] :=
  ⟨List.Pairwise.nil, by simp⟩

theorem Apart.put (apart : Apart members) (own : json.Distinct) (name : String) :
    Apart (putMember members name json) where
  ordered := apart.ordered.put name json
  documents member present := by
    rcases mem_of_mem_putMember present with rfl | old
    · exact own
    · exact apart.documents member old

theorem Apart.distinct (apart : Apart members) : (object members).Distinct := by
  refine distinct_of_parts ?_ (List.forall_mem_map.mpr apart.documents)
  rintro _ ⟨⟩
  exact apart.ordered.nodup

end Members

theorem distinct_of_parts_eq_nil {json : Json} (alone : json.parts = []) : json.Distinct := by
  refine distinct_of_parts ?_ (by simp [alone])
  rintro members rfl
  rw [List.map_eq_nil_iff.mp alone]
  exact .nil

/-- A text is read up to a rest: the document there has different names in its objects, and if it
is an array, the text has a character for each item. -/
structure Reads (input : List Char) (json : Json) (rest : List Char) : Prop where
  distinct : json.Distinct
  suffix : rest <:+ input
  length_le : ∀ items, json = array items → items.length ≤ input.length

theorem Reads.scalar {input rest : List Char} {json : Json} (alone : json.parts = [])
    (suffix : rest <:+ input) : Reads input json rest where
  distinct := distinct_of_parts_eq_nil alone
  suffix := suffix
  length_le := by
    rintro items rfl
    obtain rfl : items = [] := alone
    exact Nat.zero_le _

mutual

theorem reads_of_readValue : ∀ {fuel depth : Nat} {input rest : List Char} {json : Json},
    readValue fuel depth input = some (json, rest) → Reads input json rest
  | 0, _, _, _, _, read => by cases read
  | fuel + 1, depth, input, rest, json, read => by
      unfold readValue at read
      split at read
      case h_1 unread =>
        obtain ⟨⟨chars, rest⟩, found, same⟩ := Option.bind_eq_some_iff.mp read
        cases same
        exact .scalar rfl ((suffix_of_readChars found).trans (List.suffix_cons _ _))
      case h_2 unread =>
        split at read
        · cases read
        · split at read
          · rename_i rest closed
            cases read
            exact .scalar rfl ((suffix_of_token closed).trans (List.suffix_cons _ _))
          · obtain ⟨⟨items, rest⟩, found, same⟩ := Option.bind_eq_some_iff.mp read
            cases same
            obtain ⟨distinct, suffix, length⟩ := reads_of_readItems found
            have inside := (skipBlanks_suffix unread).trans (List.suffix_cons '[' unread)
            refine ⟨distinct_of_parts nofun distinct, suffix.trans inside, ?_⟩
            rintro _ ⟨⟩
            have shorter := inside.length_le
            omega
      case h_3 unread =>
        split at read
        · cases read
        · split at read
          · rename_i rest closed
            cases read
            exact .scalar rfl ((suffix_of_token closed).trans (List.suffix_cons _ _))
          · obtain ⟨⟨members, rest⟩, found, same⟩ := Option.bind_eq_some_iff.mp read
            cases same
            obtain ⟨apart, suffix⟩ := reads_of_readMembers .nil found
            have inside := (skipBlanks_suffix unread).trans (List.suffix_cons '\x7b' unread)
            exact ⟨apart.distinct, suffix.trans inside, nofun⟩
      case h_7 =>
        obtain ⟨⟨value, rest⟩, found, same⟩ := Option.bind_eq_some_iff.mp read
        cases same
        exact .scalar rfl (suffix_of_readNumber found)
      all_goals
        obtain ⟨rfl, suffix⟩ := suffix_of_readWord read
        exact .scalar rfl suffix

theorem reads_of_readItems : ∀ {fuel depth : Nat} {input rest : List Char} {items : List Json},
    readItems fuel depth input = some (items, rest) →
      (∀ item ∈ items, item.Distinct) ∧ rest <:+ input ∧
        items.length + rest.length ≤ input.length
  | 0, _, _, _, _, read => by cases read
  | fuel + 1, depth, input, rest, items, read => by
      obtain ⟨⟨item, unread⟩, first, read⟩ := Option.bind_eq_some_iff.mp read
      obtain ⟨distinct, suffix, -⟩ := reads_of_readValue first
      dsimp only at read
      split at read
      · rename_i later comma
        obtain ⟨⟨further, rest⟩, found, same⟩ := Option.bind_eq_some_iff.mp read
        cases same
        obtain ⟨others, suffixLater, length⟩ := reads_of_readItems found
        have behind := (token_suffix comma).trans suffix
        have skipped := skipBlanks_suffix later
        refine ⟨List.forall_mem_cons.mpr ⟨distinct, others⟩,
          suffixLater.trans (skipped.trans ((List.suffix_cons _ _).trans behind)), ?_⟩
        have shorter := behind.length_le
        have notLonger := skipped.length_le
        simp only [List.length_cons] at *
        omega
      · rename_i rest closed
        cases read
        have behind := (token_suffix closed).trans suffix
        refine ⟨List.forall_mem_singleton.mpr distinct, (List.suffix_cons _ _).trans behind, ?_⟩
        have shorter := behind.length_le
        simp only [List.length_cons, List.length_nil] at *
        omega
      · cases read

theorem reads_of_readMembers : ∀ {fuel depth : Nat} {input rest : List Char}
    {before members : List (String × Json)}, Apart before →
      readMembers fuel depth before input = some (members, rest) →
        Apart members ∧ rest <:+ input
  | 0, _, _, _, _, _, _, read => by cases read
  | fuel + 1, depth, input, rest, before, members, apart, read => by
      unfold readMembers at read
      split at read
      · rename_i unread
        obtain ⟨⟨name, behind⟩, named, read⟩ := Option.bind_eq_some_iff.mp read
        dsimp only at read
        split at read
        · rename_i colon
          obtain ⟨⟨json, later⟩, found, read⟩ := Option.bind_eq_some_iff.mp read
          obtain ⟨own, suffix, -⟩ := reads_of_readValue found
          have further := apart.put own (String.ofList name)
          have behindName : behind <:+ '"' :: unread :=
            (suffix_of_readChars named).trans (List.suffix_cons _ _)
          have behindValue : later <:+ '"' :: unread :=
            (suffix.trans (skipBlanks_suffix _)).trans ((suffix_of_token colon).trans behindName)
          dsimp only at read
          split at read
          · rename_i comma
            obtain ⟨all, last⟩ := reads_of_readMembers further read
            exact ⟨all, last.trans
              ((skipBlanks_suffix _).trans ((suffix_of_token comma).trans behindValue))⟩
          · rename_i closed
            cases read
            exact ⟨further, (suffix_of_token closed).trans behindValue⟩
          · cases read
        · cases read
      · cases read

end

theorem reads_of_parse? {text : String} {json : Json} (parsed : parse? text = some json) :
    json.Distinct ∧ ∀ items, json = array items → items.length ≤ text.length := by
  obtain ⟨⟨document, rest⟩, read, ended⟩ := Option.bind_eq_some_iff.mp parsed
  dsimp only at ended
  split at ended
  · cases ended
    obtain ⟨distinct, -, shorter⟩ := reads_of_readValue read
    refine ⟨distinct, fun items same => (shorter items same).trans ?_⟩
    exact (skipBlanks_suffix _).length_le
  · cases ended

/-- The reader of documents is one to rely on. -/
theorem parses_parse? : Parses parse? where
  distinct parsed := (reads_of_parse? parsed).1
  length_le parsed := (reads_of_parse? parsed).2 _ rfl

end ScriptCore.Json
