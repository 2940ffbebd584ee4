import Mathlib.Data.List.Basic
import Mathlib.Data.Option.Basic

/-! Rows of plain fields written with commas, and the reader of the excel dialect: its automaton
gives the rows back. -/
namespace MarketFeed.Csv

def delimiter : Char := ','
def quotechar : Char := Char.ofNat 34
def newline : Char := Char.ofNat 10
def carriageReturn : Char := Char.ofNat 13

inductive State where
  | startRecord | startField | inField | inQuotedField | quoteInQuotedField | eatCrnl
  deriving DecidableEq, Repr

structure Reader where
  state : State := .startRecord
  field : List Char := []
  fields : List (List Char) := []
  deriving DecidableEq, Repr

namespace Reader

def saveField (r : Reader) (next : State) : Reader := ⟨next,[],r.fields ++ [r.field]⟩
def addChar (r : Reader) (next : State) (c : Char) : Reader := ⟨next,r.field ++ [c],r.fields⟩

def breaks (c : Char) : Bool := c = newline || c = carriageReturn

/-- One character of a line. -/
def feed (r : Reader) (c : Char) : Option Reader :=
  match r.state with
  | .startRecord =>
    if breaks c then some { r with state := .eatCrnl }
    else if c = quotechar then some { r with state := .inQuotedField }
    else if c = delimiter then some (r.saveField .startField)
    else some (r.addChar .inField c)
  | .startField =>
    if breaks c then some (r.saveField .eatCrnl)
    else if c = quotechar then some { r with state := .inQuotedField }
    else if c = delimiter then some (r.saveField .startField)
    else some (r.addChar .inField c)
  | .inField =>
    if breaks c then some (r.saveField .eatCrnl)
    else if c = delimiter then some (r.saveField .startField)
    else some (r.addChar .inField c)
  | .inQuotedField =>
    if c = quotechar then some { r with state := .quoteInQuotedField } else some (r.addChar .inQuotedField c)
  | .quoteInQuotedField =>
    if c = quotechar then some (r.addChar .inQuotedField c)
    else if c = delimiter then some (r.saveField .startField)
    else if breaks c then some (r.saveField .eatCrnl)
    else some (r.addChar .inField c)
  | .eatCrnl => if breaks c then some r else none -- new-line character seen in unquoted field

/-- The end of a line. -/
def endLine (r : Reader) : Reader :=
  match r.state with
  | .startRecord | .inQuotedField => r
  | .startField | .inField | .quoteInQuotedField => r.saveField .startRecord
  | .eatCrnl => { r with state := .startRecord }

def readLine (r : Reader) (line : List Char) : Option Reader := (line.foldlM feed r).map endLine

/-- The rows of the lines that are left; a quoted field may run over several lines. -/
def rows (r : Reader) : List (List Char) → Option (List (List (List Char)))
  | [] => some (if r.field ≠ [] ∨ r.state = .inQuotedField then [r.fields ++ [r.field]] else [])
  | line :: rest =>
    (r.readLine line).bind fun r =>
      if r.state = .startRecord then (rows {} rest).map (r.fields :: ·) else rows r rest

end Reader

/-- The lines of a text, each with the line break that ends it. -/
def lines : List Char → List (List Char)
  | [] => []
  | c :: rest =>
    if c = newline ∨ c = carriageReturn ∧ rest.head? ≠ some newline then [c] :: lines rest
    else
      match lines rest with
      | [] => [[c]]
      | line :: more => (c :: line) :: more

def read (text : List Char) : Option (List (List (List Char))) := Reader.rows {} (lines text)

/-- A row as it is written. -/
def line (fields : List (List Char)) : List Char := List.intercalate [delimiter] fields ++ [newline]

def write (table : List (List (List Char))) : List Char := table.flatMap line

def plain (c : Char) : Bool := c ≠ delimiter && c ≠ quotechar && c ≠ newline && c ≠ carriageReturn

/-- A row that can be written without quotes. -/
structure Plain (fields : List (List Char)) : Prop where
  plain : ∀ field ∈ fields, ∀ c ∈ field, plain c = true
  first : ∃ field rest, fields = field :: rest ∧ field ≠ []

theorem plain_spec {c : Char} (is_plain : plain c = true) :
    c ≠ delimiter ∧ c ≠ quotechar ∧ c ≠ newline ∧ c ≠ carriageReturn ∧ Reader.breaks c = false := by
  simp only [plain,Bool.and_eq_true,decide_eq_true_eq] at is_plain
  obtain ⟨⟨⟨comma,quote⟩,line⟩,carriage⟩ := is_plain
  exact ⟨comma,quote,line,carriage,by simp [Reader.breaks,line,carriage]⟩

namespace Reader

theorem inField_text (text : List Char) (is_plain : ∀ c ∈ text, plain c = true) (field : List Char)
    (fields : List (List Char)) :
    text.foldlM feed ⟨.inField,field,fields⟩ = some ⟨.inField,field ++ text,fields⟩ := by
  induction text generalizing field with
  | nil => simp
  | cons c rest ih =>
    obtain ⟨comma,_,_,_,unbroken⟩ := plain_spec (is_plain c List.mem_cons_self)
    have step : feed ⟨.inField,field,fields⟩ c = some ⟨.inField,field ++ [c],fields⟩ := by
      simp [feed,unbroken,comma,addChar]
    rw [List.foldlM_cons,step]
    refine (ih (fun d member => is_plain d (List.mem_cons_of_mem _ member)) _).trans ?_
    rw [List.append_assoc,List.singleton_append]

/-- A field that starts a record has a character, so an empty line stays apart from a row. -/
theorem field_text (start : State) (begins : start = .startRecord ∨ start = .startField) (text : List Char)
    (is_plain : ∀ c ∈ text, plain c = true) (filled : text ≠ []) (fields : List (List Char)) :
    text.foldlM feed ⟨start,[],fields⟩ = some ⟨.inField,text,fields⟩ := by
  cases text with
  | nil => exact absurd rfl filled
  | cons c rest =>
    obtain ⟨comma,quote,_,_,unbroken⟩ := plain_spec (is_plain c List.mem_cons_self)
    have step : feed ⟨start,[],fields⟩ c = some ⟨.inField,[c],fields⟩ := by
      rcases begins with rfl | rfl <;> simp [feed,unbroken,comma,quote,addChar]
    rw [List.foldlM_cons,step]
    exact inField_text rest (fun d member => is_plain d (List.mem_cons_of_mem _ member)) _ _

/-- Where a field stands before what ends it. -/
theorem field_closes (start : State) (begins : start = .startRecord ∨ start = .startField) (text : List Char)
    (is_plain : ∀ c ∈ text, plain c = true) (filled : text ≠ [] ∨ start = .startField) (fields : List (List Char)) :
    ∃ r, text.foldlM feed ⟨start,[],fields⟩ = some r ∧
      feed r delimiter = some ⟨.startField,[],fields ++ [text]⟩ ∧
      feed r newline = some ⟨.eatCrnl,[],fields ++ [text]⟩ := by
  have comma : breaks delimiter = false := by decide
  have line : breaks newline = true := by decide
  have quote : delimiter ≠ quotechar := by decide
  cases text with
  | nil =>
    obtain rfl := filled.resolve_left fun contra => contra rfl
    exact ⟨_,rfl,by simp [feed,comma,quote,saveField],by simp [feed,line,saveField]⟩
  | cons c rest =>
    exact ⟨_,field_text start begins _ is_plain (by simp) fields,by simp [feed,comma,saveField],
      by simp [feed,line,saveField]⟩

theorem row_text (rest : List (List Char)) (text : List Char) (start : State)
    (begins : start = .startRecord ∨ start = .startField) (filled : text ≠ [] ∨ start = .startField)
    (is_plain : ∀ field ∈ text :: rest, ∀ c ∈ field, plain c = true) (done : List (List Char)) :
    (line (text :: rest)).foldlM feed ⟨start,[],done⟩ = some ⟨.eatCrnl,[],done ++ text :: rest⟩ := by
  obtain ⟨r,read,comma,ends⟩ := field_closes start begins text (is_plain text List.mem_cons_self) filled done
  induction rest generalizing text start done r with
  | nil =>
    rw [line,List.intercalate_singleton,List.foldlM_append,read]
    simpa using ends
  | cons next more ih =>
    have later : ∀ field ∈ next :: more, ∀ c ∈ field, plain c = true :=
      fun field member => is_plain field (List.mem_cons_of_mem _ member)
    obtain ⟨r',read',comma',ends'⟩ := field_closes .startField (Or.inr rfl) next (later next List.mem_cons_self)
      (Or.inr rfl) (done ++ [text])
    have onward := ih next .startField (Or.inr rfl) (Or.inr rfl) later (done ++ [text]) r' read' comma' ends'
    have split : line (text :: next :: more) = text ++ delimiter :: line (next :: more) := by
      rw [line,List.intercalate_cons_cons]
      simp [line]
    rw [split,List.foldlM_append,read]
    simp only [Option.bind_eq_bind,Option.bind_some,List.foldlM_cons,comma,onward]
    rw [List.append_assoc,List.singleton_append]

theorem readLine_line {fields : List (List Char)} (is_plain : Plain fields) :
    readLine {} (line fields) = some ⟨.startRecord,[],fields⟩ := by
  obtain ⟨field,rest,rfl,filled⟩ := is_plain.first
  have read := row_text rest field .startRecord (Or.inl rfl) (Or.inl filled) is_plain.plain []
  rw [readLine,read]
  rfl

theorem rows_lines (table : List (List (List Char))) (is_plain : ∀ fields ∈ table, Plain fields) :
    rows {} (table.map line) = some table := by
  induction table with
  | nil => rfl
  | cons fields rest ih =>
    have later := ih fun other member => is_plain other (List.mem_cons_of_mem _ member)
    simp [rows,readLine_line (is_plain fields List.mem_cons_self),later]

end Reader

theorem lines_break (text rest : List Char) (unbroken : ∀ c ∈ text, c ≠ newline ∧ c ≠ carriageReturn) :
    lines (text ++ newline :: rest) = (text ++ [newline]) :: lines rest := by
  induction text with
  | nil => simp [lines]
  | cons c more ih =>
    obtain ⟨line,carriage⟩ := unbroken c List.mem_cons_self
    have later := ih fun d member => unbroken d (List.mem_cons_of_mem _ member)
    rw [List.cons_append,lines,if_neg (by simp [line,carriage]),later]
    rfl

theorem line_unbroken {fields : List (List Char)} (is_plain : ∀ field ∈ fields, ∀ c ∈ field, plain c = true) :
    ∀ c ∈ List.intercalate [delimiter] fields, c ≠ newline ∧ c ≠ carriageReturn := by
  induction fields with
  | nil => simp
  | cons field rest ih =>
    have here (c : Char) (member : c ∈ field) : c ≠ newline ∧ c ≠ carriageReturn := by
      obtain ⟨_,_,line,carriage,_⟩ := plain_spec (is_plain field List.mem_cons_self c member)
      exact ⟨line,carriage⟩
    have later := ih fun other member => is_plain other (List.mem_cons_of_mem _ member)
    cases rest with
    | nil => simpa using here
    | cons next more =>
      intro c member
      rw [List.intercalate_cons_cons,List.append_assoc,List.singleton_append,List.mem_append,List.mem_cons] at member
      rcases member with own | rfl | beyond
      · exact here c own
      · decide
      · exact later c beyond

theorem lines_write (table : List (List (List Char))) (is_plain : ∀ fields ∈ table, Plain fields) :
    lines (write table) = table.map line := by
  induction table with
  | nil => rfl
  | cons fields rest ih =>
    have later := ih fun other member => is_plain other (List.mem_cons_of_mem _ member)
    have unbroken := line_unbroken (is_plain fields List.mem_cons_self).plain
    rw [List.map_cons,← later,write,List.flatMap_cons,line,List.append_assoc,List.singleton_append]
    exact lines_break _ _ unbroken

/-- The reader gives a written table back. -/
theorem read_write (table : List (List (List Char))) (is_plain : ∀ fields ∈ table, Plain fields) :
    read (write table) = some table := by
  rw [read,lines_write table is_plain]
  exact Reader.rows_lines table is_plain

/-- A row under the names of its columns: a short row leaves the last of them empty. -/
abbrev Record := List (List Char × Option (List Char))

def record (names row : List (List Char)) : Record :=
  names.zip (row.map some ++ List.replicate (names.length - row.length) none)

/-- Of two columns of one name the later one counts. -/
def Record.get (r : Record) (name : List Char) : Option (Option (List Char)) :=
  (r.reverse.find? fun cell => cell.1 = name).map Prod.snd

/-- The first row names the columns, and empty rows are passed over. -/
def dictReader (text : List Char) : Option (List Record) :=
  (read text).map fun
    | [] => []
    | names :: rows => (rows.filter (· ≠ [])).map (record names)

theorem dictReader_write (names : List (List Char)) (table : List (List (List Char))) (header : Plain names)
    (is_plain : ∀ fields ∈ table, Plain fields) :
    dictReader (write (names :: table)) = some (table.map (record names)) := by
  have all : ∀ fields ∈ names :: table, Plain fields := by
    intro fields member
    rcases List.mem_cons.mp member with rfl | later
    · exact header
    · exact is_plain fields later
  have filled : table.filter (· ≠ []) = table := by
    refine List.filter_eq_self.mpr fun fields member => ?_
    obtain ⟨field,rest,rfl,_⟩ := (is_plain fields member).first
    exact decide_eq_true (List.cons_ne_nil _ _)
  rw [dictReader,read_write _ all]
  simp only [Option.map_some,filled]

/-! A field that holds a comma and a quote is read as the dialect has it. -/

example : read [quotechar,delimiter,quotechar,quotechar,quotechar,delimiter,'b',newline] =
    some [[[delimiter,quotechar],['b']]] := rfl

end MarketFeed.Csv
