import Mathlib.Data.List.Basic
import ScriptCore.Repr

/-!
# Reading plain data

Plain data is nothing, truth values, integers, texts, and the containers built of it.  Its printed
form can be read in one way only: two trees with the same text are the same tree, even if more
text follows, as long as no digit does.
-/

namespace ScriptCore

namespace Text

/-- What may follow a number: nothing that would make it longer. -/
def Stops (rest : List Char) : Prop :=
  ∀ char ∈ rest.head?, char.isDigit = false

@[simp]
theorem stops_nil : Stops [] := by
  simp [Stops]

@[simp]
theorem stops_cons (char : Char) (rest : List Char) :
    Stops (char :: rest) ↔ char.isDigit = false := by
  simp [Stops]

/-- What is written for an item can be taken off the front of a text in one way only. -/
def Delimits {α : Type} (write : α → List Char) (item : α) : Prop :=
  ∀ other after rest, Stops after → Stops rest → write item ++ after = write other ++ rest →
    item = other ∧ after = rest

section Quoted

variable {quote : Char} {after rest : List Char}

theorem enclosingQuote_cases (text : List Char) :
    enclosingQuote text = singleQuote ∨ enclosingQuote text = doubleQuote := by
  unfold enclosingQuote
  split
  · exact Or.inr rfl
  · exact Or.inl rfl

/-- The character that a letter after a backslash stands for. -/
def unescaped (letter : Char) : Char :=
  if letter = 'n' then '\n'
  else if letter = 'r' then '\r'
  else if letter = 't' then '\t'
  else letter

/-- A character is written as a backslash and a letter that stands for it, or as it is. -/
theorem escapeChar_cases (mark : quote = singleQuote ∨ quote = doubleQuote) (char : Char) :
    (∃ letter, escapeChar quote char = ['\\', letter] ∧ unescaped letter = char) ∨
      escapeChar quote char = [char] ∧ char ≠ '\\' ∧ char ≠ quote := by
  have plain : unescaped quote = quote := by
    rcases mark with rfl | rfl <;> rfl
  unfold escapeChar
  split_ifs with backslash lineFeed carriageReturn tab encloses
  · exact Or.inl ⟨'\\', rfl, backslash.symm⟩
  · exact Or.inl ⟨'n', rfl, lineFeed.symm⟩
  · exact Or.inl ⟨'r', rfl, carriageReturn.symm⟩
  · exact Or.inl ⟨'t', rfl, tab.symm⟩
  · exact Or.inl ⟨char, rfl, encloses ▸ plain⟩
  · exact Or.inr ⟨rfl, backslash, encloses⟩

/-- A character is told by how it is written. -/
theorem escapeChar_append_inj (mark : quote = singleQuote ∨ quote = doubleQuote) {char other : Char}
    (same : escapeChar quote char ++ after = escapeChar quote other ++ rest) :
    char = other ∧ after = rest := by
  rcases escapeChar_cases mark char with ⟨letter, written, rfl⟩ | ⟨written, plain, -⟩
  · rcases escapeChar_cases mark other with ⟨also, otherWritten, rfl⟩ | ⟨otherWritten, clear, -⟩
    · rw [written, otherWritten] at same
      obtain ⟨rfl, left⟩ := List.cons.inj (List.cons.inj same).2
      exact ⟨rfl, left⟩
    · rw [written, otherWritten] at same
      exact absurd (List.cons.inj same).1.symm clear
  · rcases escapeChar_cases mark other with ⟨also, otherWritten, rfl⟩ | ⟨otherWritten, clear, -⟩
    · rw [written, otherWritten] at same
      exact absurd (List.cons.inj same).1 plain
    · rw [written, otherWritten] at same
      exact List.cons.inj same

/-- No character is written in a way that could end the text. -/
theorem escapeChar_append_ne (mark : quote = singleQuote ∨ quote = doubleQuote) (char : Char) :
    escapeChar quote char ++ after ≠ quote :: rest := by
  intro same
  have notBackslash : '\\' ≠ quote := by
    rcases mark with rfl | rfl <;> decide
  rcases escapeChar_cases mark char with ⟨letter, written, -⟩ | ⟨written, -, plain⟩
  · rw [written] at same
    exact notBackslash (List.cons.inj same).1
  · rw [written] at same
    exact plain (List.cons.inj same).1

theorem escaped_append_inj (mark : quote = singleQuote ∨ quote = doubleQuote)
    {text other : List Char}
    (same : text.flatMap (escapeChar quote) ++ quote :: after =
      other.flatMap (escapeChar quote) ++ quote :: rest) :
    text = other ∧ after = rest := by
  induction text generalizing other with
  | nil =>
      cases other with
      | nil => exact ⟨rfl, (List.cons.inj same).2⟩
      | cons first others =>
          rw [List.flatMap_cons, List.append_assoc] at same
          exact absurd same.symm (escapeChar_append_ne mark first)
  | cons char text ih =>
      rw [List.flatMap_cons, List.append_assoc] at same
      cases other with
      | nil => exact absurd same (escapeChar_append_ne mark char)
      | cons first others =>
          rw [List.flatMap_cons, List.append_assoc] at same
          obtain ⟨rfl, onward⟩ := escapeChar_append_inj mark same
          obtain ⟨rfl, left⟩ := ih onward
          exact ⟨rfl, left⟩

/-- A quoted text ends where its quote says, whatever follows. -/
theorem quotedChars_append_inj {text other : List Char}
    (same : quotedChars text ++ after = quotedChars other ++ rest) :
    text = other ∧ after = rest := by
  simp only [quotedChars, List.cons_append, List.append_assoc, List.nil_append,
    List.cons.injEq] at same
  obtain ⟨quotes, same⟩ := same
  rw [← quotes] at same
  exact escaped_append_inj (enclosingQuote_cases text) same

end Quoted

section Numbers

variable {after rest : List Char}

theorem takeWhile_toDigits_append (number : Nat) (stops : Stops after) :
    (Nat.toDigits 10 number ++ after).takeWhile Char.isDigit = Nat.toDigits 10 number := by
  rw [List.takeWhile_append_of_pos fun char member =>
    Nat.isDigit_of_mem_toDigits (by decide) (by decide) member]
  cases after with
  | nil => simp
  | cons char rest => simp [(stops_cons char rest).mp stops]

theorem toDigits_append_inj {number other : Nat} (stops : Stops after) (alsoStops : Stops rest)
    (same : Nat.toDigits 10 number ++ after = Nat.toDigits 10 other ++ rest) :
    number = other ∧ after = rest := by
  have digits : Nat.toDigits 10 number = Nat.toDigits 10 other := by
    rw [← takeWhile_toDigits_append number stops, same, takeWhile_toDigits_append other alsoStops]
  refine ⟨?_, List.append_cancel_left (digits ▸ same)⟩
  rw [← @Nat.ofDigitChars_ten_toDigits number, digits, Nat.ofDigitChars_ten_toDigits]

/-- An integer is written as a sign, if it is negative, and digits. -/
theorem toList_toString_int (value : Int) :
    (toString value).toList =
      if 0 ≤ value then Nat.toDigits 10 value.toNat
      else '-' :: Nat.toDigits 10 (-value).toNat := by
  rw [Int.toString_eq_repr, Int.repr_eq_if]
  split
  · exact Nat.toList_repr
  · simp [Nat.toList_repr]

theorem exists_toDigits_eq_cons (number : Nat) :
    ∃ char rest, Nat.toDigits 10 number = char :: rest ∧ char.isDigit = true := by
  cases digits : Nat.toDigits 10 number with
  | nil => simpa [digits] using @Nat.length_toDigits_pos 10 number
  | cons char rest =>
      have member : char ∈ Nat.toDigits 10 number := by simp [digits]
      exact ⟨char, rest, rfl, Nat.isDigit_of_mem_toDigits (by decide) (by decide) member⟩

theorem delimits_int (value : Int64) :
    Delimits (fun value : Int64 => (toString value.toInt).toList) value := by
  intro other after rest stops alsoStops same
  simp only [toList_toString_int] at same
  obtain ⟨char, digits, first, isDigit⟩ := exists_toDigits_eq_cons value.toInt.toNat
  obtain ⟨otherChar, otherDigits, otherFirst, otherIsDigit⟩ :=
    exists_toDigits_eq_cons other.toInt.toNat
  have equal : value.toInt = other.toInt ∧ after = rest := by
    split at same <;> split at same
    · obtain ⟨numbers, left⟩ := toDigits_append_inj stops alsoStops same
      exact ⟨by omega, left⟩
    · rw [first] at same
      obtain ⟨rfl, -⟩ := List.cons.inj same
      simp at isDigit
    · rw [otherFirst] at same
      obtain ⟨rfl, -⟩ := List.cons.inj same
      simp at otherIsDigit
    · obtain ⟨numbers, left⟩ := toDigits_append_inj stops alsoStops (List.cons.inj same).2
      exact ⟨by omega, left⟩
  exact ⟨Int64.toInt_inj.mp equal.1, equal.2⟩

end Numbers

section Sequences

variable {α : Type} {write : α → List Char} {items others : List α} {after rest : List Char}

/-- Texts that follow another one, each after a comma. -/
def continued (texts : List (List Char)) : List Char :=
  texts.flatMap fun text => ',' :: ' ' :: text

theorem commaSeparated_cons (text : List Char) (texts : List (List Char)) :
    commaSeparated (text :: texts) = text ++ continued texts := by
  induction texts generalizing text with
  | nil => simp [commaSeparated, continued]
  | cons next texts ih =>
      rw [commaSeparated, ih]
      · simp [continued]
      · simp

/-- What follows an item of a sequence is no digit. -/
theorem stops_continued (texts : List (List Char)) {close : Char}
    (notDigit : close.isDigit = false) : Stops (continued texts ++ close :: after) := by
  cases texts with
  | nil => simpa [continued] using notDigit
  | cons text texts => simp [continued]

theorem continued_append_inj {close : Char} (notComma : close ≠ ',')
    (notDigit : close.isDigit = false) (each : ∀ item ∈ items, Delimits write item)
    (same : continued (items.map write) ++ close :: after =
      continued (others.map write) ++ close :: rest) :
    items = others ∧ after = rest := by
  induction items generalizing others with
  | nil =>
      cases others with
      | nil => exact ⟨rfl, (List.cons.inj same).2⟩
      | cons other others => exact absurd (List.cons.inj same).1 notComma
  | cons item items ih =>
      cases others with
      | nil => exact absurd (List.cons.inj same).1.symm notComma
      | cons other others =>
          have shorter : write item ++ (continued (items.map write) ++ close :: after) =
              write other ++ (continued (others.map write) ++ close :: rest) := by
            simpa [continued] using same
          obtain ⟨rfl, onward⟩ := each item List.mem_cons_self other _ _
            (stops_continued _ notDigit) (stops_continued _ notDigit) shorter
          obtain ⟨rfl, left⟩ := ih (fun item member => each item (List.mem_cons_of_mem _ member))
            onward
          exact ⟨rfl, left⟩

/-- A sequence that is closed by a character with which no item begins. -/
theorem commaSeparated_append_inj {close : Char} (notComma : close ≠ ',')
    (notDigit : close.isDigit = false)
    (opens : ∀ item after rest, write item ++ after ≠ close :: rest)
    (each : ∀ item ∈ items, Delimits write item)
    (same : commaSeparated (items.map write) ++ close :: after =
      commaSeparated (others.map write) ++ close :: rest) :
    items = others ∧ after = rest := by
  cases items with
  | nil =>
      cases others with
      | nil => exact ⟨rfl, (List.cons.inj same).2⟩
      | cons other others =>
          rw [List.map_cons, commaSeparated_cons, List.append_assoc] at same
          exact absurd same.symm (opens other _ _)
  | cons item items =>
      rw [List.map_cons, commaSeparated_cons, List.append_assoc] at same
      cases others with
      | nil => exact absurd same (opens item _ _)
      | cons other others =>
          rw [List.map_cons, commaSeparated_cons, List.append_assoc] at same
          obtain ⟨rfl, onward⟩ := each item List.mem_cons_self other _ _
            (stops_continued _ notDigit) (stops_continued _ notDigit) same
          obtain ⟨rfl, left⟩ := continued_append_inj notComma notDigit
            (fun item member => each item (List.mem_cons_of_mem _ member)) onward
          exact ⟨rfl, left⟩

end Sequences

end Text

open Text

/-- Plain data, as a tree. -/
inductive Form
  | nothing
  | bool (value : Bool)
  | int (value : Int64)
  | text (value : String)
  | tuple (items : List Form)
  | list (items : List Form)
  | dict (entries : List (Form × Form))
  | set (members : List Form)

namespace Form

mutual

/-- How plain data is written. -/
def write : Form → List Char
  | nothing => "None".toList
  | bool value => (if value then "True" else "False").toList
  | int value => (toString value.toInt).toList
  | text value => quotedChars value.toList
  | tuple items =>
      match writeAll items with
      | [item] => enclosed "(" ",)" item
      | items => enclosed "(" ")" (commaSeparated items)
  | list items => enclosed "[" "]" (commaSeparated (writeAll items))
  | dict entries => enclosed "\x7b" "\x7d" (commaSeparated (writeEntries entries))
  | set members =>
      match writeAll members with
      | [] => "set()".toList
      | members => enclosed "\x7b" "\x7d" (commaSeparated members)

def writeAll : List Form → List (List Char)
  | [] => []
  | form :: rest => write form :: writeAll rest

def writeEntries : List (Form × Form) → List (List Char)
  | [] => []
  | (key, value) :: rest => (write key ++ ':' :: ' ' :: write value) :: writeEntries rest

end

theorem writeAll_eq_map (forms : List Form) : writeAll forms = forms.map write := by
  induction forms with
  | nil => rfl
  | cons form rest ih => rw [writeAll, ih, List.map_cons]

/-- How an entry of a dict is written. -/
def writeEntry (entry : Form × Form) : List Char :=
  entry.1.write ++ ':' :: ' ' :: entry.2.write

theorem writeEntries_eq_map (entries : List (Form × Form)) :
    writeEntries entries = entries.map writeEntry := by
  induction entries with
  | nil => rfl
  | cons entry rest ih => rw [writeEntries, ih, List.map_cons, writeEntry]

/-- Induction on plain data: what holds of all that a container holds, holds of the container. -/
@[induction_eliminator]
theorem induct {motive : Form → Prop} (nothing : motive .nothing)
    (bool : ∀ value, motive (.bool value)) (int : ∀ value, motive (.int value))
    (text : ∀ value, motive (.text value))
    (tuple : ∀ items, (∀ item ∈ items, motive item) → motive (.tuple items))
    (list : ∀ items, (∀ item ∈ items, motive item) → motive (.list items))
    (dict : ∀ entries, (∀ entry ∈ entries, motive entry.1 ∧ motive entry.2) →
      motive (.dict entries))
    (set : ∀ members, (∀ member ∈ members, motive member) → motive (.set members))
    (form : Form) : motive form :=
  @Form.rec motive (fun items => ∀ item ∈ items, motive item)
    (fun entries => ∀ entry ∈ entries, motive entry.1 ∧ motive entry.2)
    (fun entry => motive entry.1 ∧ motive entry.2)
    nothing bool int text tuple list dict set
    (fun _ => nofun) (fun _ _ first rest => List.forall_mem_cons.mpr ⟨first, rest⟩)
    (fun _ => nofun) (fun _ _ first rest => List.forall_mem_cons.mpr ⟨first, rest⟩)
    (fun _ _ key value => ⟨key, value⟩) form

/-- What the first character of a text tells. -/
inductive Lead
  | nothing
  | bool
  | int
  | text
  | tuple
  | list
  | brace
  | emptySet

/-- What a character tells, if a text can begin with it. -/
def leadOf? (char : Char) : Option Lead :=
  if char = 'N' then some .nothing
  else if char = 'T' ∨ char = 'F' then some .bool
  else if char = '-' ∨ char.isDigit = true then some .int
  else if char = singleQuote ∨ char = doubleQuote then some .text
  else if char = '(' then some .tuple
  else if char = '[' then some .list
  else if char = '\x7b' then some .brace
  else if char = 's' then some .emptySet
  else none

/-- What the first character of a form tells: dicts begin as sets do that have members. -/
def lead : Form → Lead
  | nothing => .nothing
  | bool _ => .bool
  | int _ => .int
  | text _ => .text
  | tuple _ => .tuple
  | list _ => .list
  | dict _ => .brace
  | set [] => .emptySet
  | set (_ :: _) => .brace

theorem leadOf?_of_isDigit {char : Char} (isDigit : char.isDigit = true) :
    leadOf? char = some .int := by
  have unlike : ∀ other : Char, other.isDigit = false → char ≠ other := by
    rintro other notDigit rfl
    simp [isDigit] at notDigit
  simp [leadOf?, isDigit, unlike 'N', unlike 'T', unlike 'F']

theorem exists_write_eq_cons (form : Form) :
    ∃ char rest, form.write = char :: rest ∧ leadOf? char = some form.lead := by
  cases form with
  | nothing => exact ⟨'N', _, rfl, rfl⟩
  | bool value =>
      cases value with
      | false => exact ⟨'F', _, rfl, rfl⟩
      | true => exact ⟨'T', _, rfl, rfl⟩
  | int value =>
      rw [write, toList_toString_int]
      split
      · obtain ⟨char, rest, digits, isDigit⟩ := exists_toDigits_eq_cons value.toInt.toNat
        exact ⟨char, rest, digits, leadOf?_of_isDigit isDigit⟩
      · exact ⟨'-', _, rfl, rfl⟩
  | text value =>
      refine ⟨_, _, rfl, ?_⟩
      rcases enclosingQuote_cases value.toList with single | double
      · rw [single]
        rfl
      · rw [double]
        rfl
  | tuple items =>
      rw [write]
      split <;> exact ⟨'(', _, rfl, rfl⟩
  | list items => exact ⟨'[', _, rfl, rfl⟩
  | dict entries => exact ⟨'\x7b', _, rfl, rfl⟩
  | set members =>
      cases members with
      | nil => exact ⟨'s', _, rfl, rfl⟩
      | cons member members => exact ⟨'\x7b', _, rfl, rfl⟩

variable {form other : Form} {after rest : List Char}

theorem write_append_ne {close : Char} (closes : leadOf? close = none) :
    form.write ++ after ≠ close :: rest := by
  obtain ⟨char, tail, written, leads⟩ := form.exists_write_eq_cons
  rw [written, List.cons_append]
  intro same
  obtain ⟨rfl, -⟩ := List.cons.inj same
  simp [closes] at leads

theorem lead_eq (same : form.write ++ after = other.write ++ rest) : form.lead = other.lead := by
  obtain ⟨char, tail, written, leads⟩ := form.exists_write_eq_cons
  obtain ⟨otherChar, otherTail, otherWritten, otherLeads⟩ := other.exists_write_eq_cons
  rw [written, otherWritten] at same
  obtain ⟨rfl, -⟩ := List.cons.inj same
  exact Option.some.inj (leads.symm.trans otherLeads)

theorem delimits_entry {entry : Form × Form} (key : Delimits write entry.1)
    (value : Delimits write entry.2) : Delimits writeEntry entry := by
  intro other after rest stops alsoStops same
  simp only [writeEntry, List.append_assoc, List.cons_append] at same
  obtain ⟨keys, onward⟩ := key other.1 _ _ (by simp) (by simp) same
  obtain ⟨values, left⟩ := value other.2 after rest stops alsoStops
    (List.cons.inj (List.cons.inj onward).2).2
  exact ⟨Prod.ext keys values, left⟩

/-- What follows the first item of a tuple. -/
def tupleEnd : List Form → List Char
  | [] => [',', ')']
  | items => continued (items.map write) ++ [')']

section Containers

variable (item : Form) (items : List Form) (entries : List (Form × Form)) (after : List Char)

theorem write_tuple_nil_append : (tuple []).write ++ after = '(' :: ')' :: after := rfl

theorem write_tuple_cons_append :
    (tuple (item :: items)).write ++ after = '(' :: (item.write ++ (tupleEnd items ++ after)) := by
  rw [write, writeAll_eq_map]
  cases items with
  | nil => simp [enclosed, tupleEnd]
  | cons next items => simp [enclosed, tupleEnd, commaSeparated_cons]

theorem write_list_append :
    (list items).write ++ after = '[' :: (commaSeparated (items.map write) ++ ']' :: after) := by
  simp [write, writeAll_eq_map, enclosed]

theorem write_dict_append :
    (dict entries).write ++ after =
      '\x7b' :: (commaSeparated (entries.map writeEntry) ++ '\x7d' :: after) := by
  simp [write, writeEntries_eq_map, enclosed]

theorem write_set_cons_append :
    (set (item :: items)).write ++ after =
      '\x7b' :: (commaSeparated ((item :: items).map write) ++ '\x7d' :: after) := by
  simp [write, writeAll_eq_map, enclosed]

end Containers

section Tuples

variable {items others : List Form}

theorem stops_tupleEnd (items : List Form) : Stops (tupleEnd items ++ after) := by
  cases items <;> simp [tupleEnd, continued]

/-- The comma after a single item is followed by no blank. -/
theorem tupleEnd_append_inj (each : ∀ item ∈ items, Delimits write item)
    (same : tupleEnd items ++ after = tupleEnd others ++ rest) : items = others ∧ after = rest := by
  cases items with
  | nil =>
      cases others with
      | nil => exact ⟨rfl, List.append_cancel_left same⟩
      | cons other others => simp [tupleEnd, continued] at same
  | cons item items =>
      cases others with
      | nil => simp [tupleEnd, continued] at same
      | cons other others =>
          simp only [tupleEnd, List.append_assoc, List.singleton_append] at same
          exact continued_append_inj (by decide) (by decide) each same

theorem delimits_tuple (each : ∀ item ∈ items, Delimits write item) :
    Delimits write (tuple items) := by
  intro other after rest _ _ same
  have leads := lead_eq same
  cases other with
  | tuple others =>
      cases items with
      | nil =>
          rw [write_tuple_nil_append] at same
          cases others with
          | nil =>
              rw [write_tuple_nil_append] at same
              exact ⟨rfl, (List.cons.inj (List.cons.inj same).2).2⟩
          | cons other others =>
              rw [write_tuple_cons_append] at same
              exact absurd (List.cons.inj same).2.symm (write_append_ne rfl)
      | cons item items =>
          rw [write_tuple_cons_append] at same
          cases others with
          | nil =>
              rw [write_tuple_nil_append] at same
              exact absurd (List.cons.inj same).2 (write_append_ne rfl)
          | cons other others =>
              rw [write_tuple_cons_append] at same
              obtain ⟨rfl, onward⟩ := each item List.mem_cons_self other _ _
                (stops_tupleEnd items) (stops_tupleEnd others) (List.cons.inj same).2
              obtain ⟨rfl, left⟩ := tupleEnd_append_inj
                (fun item member => each item (List.mem_cons_of_mem _ member)) onward
              exact ⟨rfl, left⟩
  | set others => cases others <;> cases leads
  | _ => cases leads

end Tuples

section Braces

variable {entries : List (Form × Form)} {members : List Form}

/-- An entry goes on with a colon, and a member with a comma or the closing brace. -/
theorem dict_ne_set (keys : (∀ entry ∈ entries, Delimits write entry.1) ∨
      ∀ member ∈ members, Delimits write member) :
    (dict entries).write ++ after ≠ (set members).write ++ rest := by
  intro same
  cases members with
  | nil => exact absurd (lead_eq same) nofun
  | cons member members =>
      rw [write_dict_append, write_set_cons_append, List.map_cons, commaSeparated_cons,
        List.append_assoc] at same
      have inner := (List.cons.inj same).2
      cases entries with
      | nil => exact write_append_ne rfl inner.symm
      | cons entry entries =>
          rw [List.map_cons, commaSeparated_cons, writeEntry, List.append_assoc,
            List.append_assoc] at inner
          have stops := @stops_continued rest (members.map write) '\x7d' rfl
          rcases keys with keys | keys
          · obtain ⟨-, clash⟩ := keys entry List.mem_cons_self member _ _ (by simp) stops inner
            cases members <;> simp [continued] at clash
          · obtain ⟨-, clash⟩ :=
              keys member List.mem_cons_self entry.1 _ _ stops (by simp) inner.symm
            cases members <;> simp [continued] at clash

theorem delimits_dict
    (each : ∀ entry ∈ entries, Delimits write entry.1 ∧ Delimits write entry.2) :
    Delimits write (dict entries) := by
  intro other after rest _ _ same
  have leads := lead_eq same
  cases other with
  | dict others =>
      rw [write_dict_append, write_dict_append] at same
      have opens : ∀ (entry : Form × Form) (after rest : List Char),
          writeEntry entry ++ after ≠ '\x7d' :: rest := by
        intro entry after rest
        rw [writeEntry, List.append_assoc]
        exact write_append_ne rfl
      obtain ⟨rfl, left⟩ := commaSeparated_append_inj (by decide) rfl opens
        (fun entry member => delimits_entry (each entry member).1 (each entry member).2)
        (List.cons.inj same).2
      exact ⟨rfl, left⟩
  | set others => exact absurd same (dict_ne_set (Or.inl fun entry member => (each entry member).1))
  | _ => cases leads

theorem delimits_set (each : ∀ member ∈ members, Delimits write member) :
    Delimits write (set members) := by
  intro other after rest _ _ same
  have leads := lead_eq same
  cases other with
  | dict others => exact absurd same.symm (dict_ne_set (Or.inr each))
  | set others =>
      cases members with
      | nil =>
          cases others with
          | nil => exact ⟨rfl, List.append_cancel_left same⟩
          | cons other others => cases leads
      | cons member members =>
          cases others with
          | nil => cases leads
          | cons other others =>
              rw [write_set_cons_append, write_set_cons_append] at same
              obtain ⟨listed, left⟩ := commaSeparated_append_inj (by decide) rfl
                (fun _ _ _ => write_append_ne rfl) each (List.cons.inj same).2
              exact ⟨congrArg set listed, left⟩
  | _ => cases members <;> cases leads

end Braces

/-- The text of plain data is read in one way only. -/
theorem delimits (form : Form) : Delimits write form := by
  -- One case for each kind: the first character tells the kind, but for dicts and sets.
  induction form with
  | nothing =>
      intro other after rest _ _ same
      have leads := lead_eq same
      cases other with
      | nothing => exact ⟨rfl, List.append_cancel_left same⟩
      | set others => cases others <;> cases leads
      | _ => cases leads
  | bool value =>
      intro other after rest _ _ same
      have leads := lead_eq same
      cases other with
      | bool otherValue => cases value <;> cases otherValue <;> simp_all [write]
      | set others => cases others <;> cases leads
      | _ => cases leads
  | int value =>
      intro other after rest stops alsoStops same
      have leads := lead_eq same
      cases other with
      | int otherValue =>
          obtain ⟨rfl, left⟩ := delimits_int value otherValue after rest stops alsoStops same
          exact ⟨rfl, left⟩
      | set others => cases others <;> cases leads
      | _ => cases leads
  | text value =>
      intro other after rest _ _ same
      have leads := lead_eq same
      cases other with
      | text otherValue =>
          obtain ⟨chars, left⟩ := quotedChars_append_inj same
          exact ⟨congrArg text (String.toList_inj.mp chars), left⟩
      | set others => cases others <;> cases leads
      | _ => cases leads
  | tuple items each => exact delimits_tuple each
  | list items each =>
      intro other after rest _ _ same
      have leads := lead_eq same
      cases other with
      | list others =>
          rw [write_list_append, write_list_append] at same
          obtain ⟨rfl, left⟩ := commaSeparated_append_inj (by decide) rfl
            (fun _ _ _ => write_append_ne rfl) each (List.cons.inj same).2
          exact ⟨rfl, left⟩
      | set others => cases others <;> cases leads
      | _ => cases leads
  | dict entries each => exact delimits_dict each
  | set members each => exact delimits_set each

theorem write_injective : Function.Injective write := fun form other same =>
  (form.delimits other [] [] stops_nil stops_nil (congrArg (· ++ []) same)).1

end Form

end ScriptCore
