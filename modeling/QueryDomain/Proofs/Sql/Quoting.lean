import QueryDomain.Domain.Wire
import QueryDomain.Sql.Lowering

/-! Quoted text, as a database reads it. A quote inside is written twice; by the rule of one dialect
a backslash also escapes the character after it in literals. The keys of a JSON path are kept inside
their literals by the first rule always, and by the second one as long as no backslash of a key
escapes a quote. -/
namespace QueryDomain

open List

namespace Quoted

/-- What a backslash and a character stand for together. Before a wildcard of patterns the backslash
stays. -/
def unescaped (c : Char) : List Char :=
  match c with
  | '0' => [Char.ofNat 0]
  | 'b' => [Char.ofNat 8]
  | 'n' => ['\n']
  | 'r' => ['\r']
  | 't' => ['\t']
  | 'Z' => [Char.ofNat 26]
  | '%' => ['\\', '%']
  | '_' => ['\\', '_']
  | c => [c]

def prepend (cs : List Char) (read : List Char × List Char) : List Char × List Char :=
  (cs ++ read.1, read.2)

/-- Reads from behind the opening quote to the quote that closes the text: what the text stands for,
and what follows it. -/
def read (escapes : Bool) (quote : Char) : List Char → Option (List Char × List Char)
  | [] => none
  | [c] => if c = quote then some ([], []) else none
  | c :: d :: rest =>
    if c = quote then
      if d = quote then (read escapes quote rest).map (prepend [quote]) else some ([], d :: rest)
    else if escapes && c == '\\' then (read escapes quote rest).map (prepend (unescaped d))
    else (read escapes quote (d :: rest)).map (prepend [c])

variable {escapes : Bool} {quote c d : Char} {cs rest : List Char}

theorem read_close (h : rest.head? ≠ some quote) :
    read escapes quote (quote :: rest) = some ([], rest) := by
  cases rest with
  | nil => exact if_pos rfl
  | cons d rest =>
    rw [read, if_pos rfl, if_neg]
    simpa using h

theorem read_twice : read escapes quote (quote :: quote :: rest) =
    (read escapes quote rest).map (prepend [quote]) := by
  rw [read, if_pos rfl, if_pos rfl]

theorem read_plain (hquote : c ≠ quote) (hescape : (escapes && c == '\\') = false) :
    read escapes quote (c :: rest) = (read escapes quote rest).map (prepend [c]) := by
  cases rest with
  | nil => exact if_neg hquote
  | cons d rest => rw [read, if_neg hquote, hescape, if_neg Bool.false_ne_true]

theorem read_escape (hquote : '\\' ≠ quote) : read true quote ('\\' :: d :: rest) =
    (read true quote rest).map (prepend (unescaped d)) := by
  rw [read, if_neg hquote]
  exact if_pos rfl

def doubled (quote : Char) (cs : List Char) : List Char :=
  cs.flatMap fun x => if x = quote then [quote, quote] else [x]

theorem doubled_append (quote : Char) (cs ds : List Char) :
    doubled quote (cs ++ ds) = doubled quote cs ++ doubled quote ds :=
  flatMap_append

theorem toList_quoted (quote : Char) (s : String) :
    (Text.quoted quote s).toList = quote :: (doubled quote s.toList ++ [quote]) := by
  simp [Text.quoted, Text.replace, doubled]

theorem read_doubled (cs : List Char) (h : rest.head? ≠ some quote) :
    read false quote (doubled quote cs ++ quote :: rest) = some (cs, rest) := by
  induction cs with
  | nil => exact read_close h
  | cons c cs ih =>
    by_cases hc : c = quote
    · subst hc
      have htwice : doubled c (c :: cs) ++ c :: rest = c :: c :: (doubled c cs ++ c :: rest) := by
        simp [doubled]
      rw [htwice, read_twice, ih]
      rfl
    · have honce : doubled quote (c :: cs) ++ quote :: rest =
          c :: (doubled quote cs ++ quote :: rest) := by
        simp [doubled, hc]
      rw [honce, read_plain hc rfl, ih]
      rfl

def Passes (escapes : Bool) (quote : Char) (text : List Char) : Prop :=
  ∃ content, ∀ rest, read escapes quote (text ++ rest) =
    (read escapes quote rest).map (prepend content)

theorem Passes.nil : Passes escapes quote [] := by
  refine ⟨[], fun rest => ?_⟩
  cases hread : read escapes quote rest <;> simp [hread, prepend]

theorem Passes.append {text others : List Char} (h : Passes escapes quote text)
    (h' : Passes escapes quote others) : Passes escapes quote (text ++ others) := by
  obtain ⟨content, hcontent⟩ := h
  obtain ⟨more, hmore⟩ := h'
  refine ⟨content ++ more, fun rest => ?_⟩
  rw [append_assoc, hcontent, hmore, Option.map_map]
  congr 1
  funext read
  simp [prepend]

theorem passes_plain (hquote : c ≠ quote) (hescape : (escapes && c == '\\') = false) :
    Passes escapes quote [c] :=
  ⟨[c], fun _ => read_plain hquote hescape⟩

theorem passes_twice : Passes escapes quote [quote, quote] := ⟨[quote], fun _ => read_twice⟩

theorem passes_escape (hquote : '\\' ≠ quote) : Passes true quote ['\\', d] :=
  ⟨unescaped d, fun _ => read_escape hquote⟩

theorem Passes.read_close {text : List Char} (h : Passes escapes quote text)
    (hrest : rest.head? ≠ some quote) :
    ∃ content, read escapes quote (text ++ quote :: rest) = some (content, rest) := by
  obtain ⟨content, hcontent⟩ := h
  exact ⟨content ++ [], by rw [hcontent, Quoted.read_close hrest]; rfl⟩

/-- Reading stops before the text has come to `rest`. -/
def StopsBefore (escapes : Bool) (quote : Char) (text rest : List Char) : Prop :=
  ∃ content left, read escapes quote text = some (content, left) ∧ rest.length < left.length

theorem Passes.stopsBefore {text others : List Char} (h : Passes escapes quote text)
    (h' : StopsBefore escapes quote others rest) :
    StopsBefore escapes quote (text ++ others) rest := by
  obtain ⟨content, hcontent⟩ := h
  obtain ⟨more, left, hread, hlength⟩ := h'
  exact ⟨content ++ more, left, by rw [hcontent, hread]; rfl, hlength⟩

end Quoted

namespace Dialect

def literalQuote : Char := Char.ofNat 39

def escapes : Dialect → Bool
  | postgres => false
  | mysql => true

def readLiteral (dialect : Dialect) : List Char → Option (List Char × List Char)
  | [] => none
  | c :: cs => if c = literalQuote then Quoted.read dialect.escapes literalQuote cs else none

theorem readLiteral_quoteLiteral (dialect : Dialect) (s : String) (after : List Char) :
    dialect.readLiteral ((quoteLiteral s).toList ++ after) =
      Quoted.read dialect.escapes literalQuote
        (Quoted.doubled literalQuote s.toList ++ literalQuote :: after) := by
  rw [quoteLiteral, Quoted.toList_quoted, cons_append, append_assoc, readLiteral]
  exact if_pos rfl

theorem head?_arrows (keys : List String) : (arrows keys).toList.head? ≠ some literalQuote := by
  match keys with
  | [] => simp [arrows]
  | [key] => simp [arrows, literalQuote]
  | key :: next :: keys => simp [arrows, literalQuote]

theorem arrows_append (left : List String) (key : String) (right : List String) :
    ∃ before, arrows (left ++ key :: right) = before ++ (quoteLiteral key ++ arrows right) := by
  induction left with
  | nil =>
    cases right with
    | nil => exact ⟨"->>", by simp [arrows]⟩
    | cons next right => exact ⟨"->", by simp [arrows, String.append_assoc]⟩
  | cons first left ih =>
    obtain ⟨before, hbefore⟩ := ih
    refine ⟨"->" ++ quoteLiteral first ++ before, ?_⟩
    obtain ⟨next, rest, hrest⟩ := exists_cons_of_ne_nil
      (show left ++ key :: right ≠ [] by simp)
    rw [cons_append, hrest, arrows, ← hrest, hbefore]
    · simp only [String.append_assoc]
    · simp

theorem jsonText_postgres (column : String) (keys : List String) :
    jsonText .postgres column keys = column ++ arrows keys :=
  rfl

def quotedKey (key : String) : String := "\"" ++ Text.replace '"' "\\\"" key ++ "\""

def keyPath (keys : List String) : String := "$." ++ Text.join "." (keys.map quotedKey)

theorem jsonText_mysql (column : String) (keys : List String) :
    jsonText .mysql column keys =
      "JSON_UNQUOTE(JSON_EXTRACT(" ++ column ++ ", " ++ quoteLiteral (keyPath keys) ++ "))" :=
  rfl

/-- A backslash of the text that is not escaped itself stands before a quote. -/
def escapesQuote : List Char → Bool
  | [] | [_] => false
  | c :: d :: rest =>
    if c = '\\' then d == literalQuote || escapesQuote rest else escapesQuote (d :: rest)

/-- A character of a key inside the literal: double quotes are escaped, and quotes written twice. -/
def charText (c : Char) : List Char :=
  if c = '"' then ['\\', '"'] else if c = literalQuote then [literalQuote, literalQuote] else [c]

def keyText (key : List Char) : List Char := key.flatMap charText

def keyTexts : List String → List Char
  | [] => []
  | [key] => '"' :: (keyText key.toList ++ ['"'])
  | key :: keys => '"' :: (keyText key.toList ++ '"' :: '.' :: keyTexts keys)

theorem doubled_quotedKey (key : String) : Quoted.doubled literalQuote (quotedKey key).toList =
    '"' :: (keyText key.toList ++ ['"']) := by
  have hreplace : Quoted.doubled literalQuote (Text.replace '"' "\\\"" key).toList =
      keyText key.toList := by
    rw [Text.replace, String.toList_ofList, Quoted.doubled, keyText, flatMap_assoc]
    congr 1
    funext c
    by_cases hc : c = '"'
    · subst hc
      rfl
    · simp [hc, charText]
  rw [quotedKey, String.toList_append, String.toList_append, Quoted.doubled_append,
    Quoted.doubled_append, hreplace]
  rfl

theorem doubled_keyPath (keys : List String) :
    Quoted.doubled literalQuote (keyPath keys).toList = '$' :: '.' :: keyTexts keys := by
  have hkeys : Quoted.doubled literalQuote (Text.join "." (keys.map quotedKey)).toList =
      keyTexts keys := by
    rw [Text.join, String.toList_intercalate]
    induction keys with
    | nil => rfl
    | cons key keys ih =>
      cases keys with
      | nil =>
        rw [map_cons, map_nil, map_cons, map_nil, intercalate_singleton, doubled_quotedKey, keyTexts]
      | cons next keys =>
        have hdot : Quoted.doubled literalQuote ".".toList = ['.'] := rfl
        rw [map_cons, map_cons, map_cons, map_cons, intercalate_cons_cons, Quoted.doubled_append,
          Quoted.doubled_append, hdot, doubled_quotedKey, keyTexts]
        · simpa using ih
        · simp
  rw [keyPath, String.toList_append, Quoted.doubled_append, hkeys]
  rfl

open Quoted

variable {key rest : List Char} {c d : Char}

theorem backslash_ne : '\\' ≠ literalQuote := by decide

theorem passes_charText (hc : c ≠ '\\') : Passes true literalQuote (charText c) := by
  unfold charText
  split
  · exact passes_escape backslash_ne
  · split
    · exact passes_twice
    · exact passes_plain ‹_› (by simpa using hc)

theorem passes_backslash (hd : d ≠ literalQuote) :
    Passes true literalQuote ('\\' :: charText d) := by
  unfold charText
  split
  · have hbackslashes : Passes true literalQuote ['\\', '\\'] := passes_escape backslash_ne
    exact hbackslashes.append (passes_plain (by decide) rfl)
  · exact passes_escape backslash_ne

theorem passes_keyText (h : escapesQuote key = false) :
    Passes true literalQuote (keyText key ++ ['"']) := by
  fun_induction escapesQuote key with
  | case1 => exact passes_plain (by decide) rfl
  | case2 c =>
    by_cases hc : c = '\\'
    · subst hc
      exact passes_escape backslash_ne
    · rw [keyText, flatMap_singleton]
      exact (passes_charText hc).append (passes_plain (by decide) rfl)
  | case3 d rest ih =>
    rw [Bool.or_eq_false_iff, beq_eq_false_iff_ne] at h
    rw [keyText, flatMap_cons, flatMap_cons, ← append_assoc, append_assoc]
    exact (passes_backslash h.1).append (ih h.2)
  | case4 c d rest hc ih =>
    rw [keyText, flatMap_cons, append_assoc]
    exact (passes_charText hc).append (ih h)

theorem stopsBefore_quote (key : List Char) : StopsBefore true literalQuote
    (literalQuote :: (keyText key ++ '"' :: rest)) rest := by
  induction key with
  | nil => exact ⟨[], _, read_close (by simp [keyText, literalQuote]), by simp [keyText]⟩
  | cons c key ih =>
    by_cases hc : c = literalQuote
    · subst hc
      exact passes_twice.stopsBefore ih
    · refine ⟨[], _, read_close ?_, ?_⟩
      · rw [keyText, flatMap_cons, charText]
        split
        · simp [backslash_ne]
        · simp [hc]
      · simp [keyText]
        omega

theorem stopsBefore_keyText (h : escapesQuote key = true) :
    StopsBefore true literalQuote (keyText key ++ '"' :: rest) rest := by
  fun_induction escapesQuote key with
  | case1 => cases h
  | case2 c => cases h
  | case3 d key ih =>
    rw [keyText, flatMap_cons, flatMap_cons, ← append_assoc, append_assoc]
    by_cases hd : d = literalQuote
    · subst hd
      have hescaped : Passes true literalQuote ['\\', literalQuote] := passes_escape backslash_ne
      exact hescaped.stopsBefore (stopsBefore_quote key)
    · rw [beq_eq_false_iff_ne.2 hd, Bool.false_or] at h
      exact (passes_backslash hd).stopsBefore (ih h)
  | case4 c d key hc ih =>
    rw [keyText, flatMap_cons, append_assoc]
    exact (passes_charText hc).stopsBefore (ih h)

theorem passes_doubleQuote : Passes true literalQuote ['"'] := passes_plain (by decide) rfl

theorem passes_dot : Passes true literalQuote ['.'] := passes_plain (by decide) rfl

theorem passes_keyTexts {keys : List String}
    (h : ∀ key ∈ keys, escapesQuote key.toList = false) :
    Passes true literalQuote (keyTexts keys) := by
  fun_induction keyTexts keys with
  | case1 => exact .nil
  | case2 key => exact passes_doubleQuote.append (passes_keyText (h key mem_cons_self))
  | case3 key keys _ ih =>
    rw [forall_mem_cons] at h
    have hall := passes_doubleQuote.append
      ((passes_keyText h.1).append (passes_dot.append (ih h.2)))
    simpa using hall

theorem stopsBefore_keyTexts {keys : List String} {after : List Char}
    (h : ∃ key ∈ keys, escapesQuote key.toList = true) :
    StopsBefore true literalQuote (keyTexts keys ++ literalQuote :: after) after := by
  fun_induction keyTexts keys with
  | case1 => simp at h
  | case2 key =>
    have hkey : escapesQuote key.toList = true := by simpa using h
    have hstops : StopsBefore true literalQuote (keyText key.toList ++ '"' :: literalQuote :: after)
        (literalQuote :: after) := stopsBefore_keyText hkey
    obtain ⟨content, left, hread, hlength⟩ := passes_doubleQuote.stopsBefore hstops
    refine ⟨content, left, by simpa using hread, ?_⟩
    rw [length_cons] at hlength
    omega
  | case3 key keys _ ih =>
    cases hkey : escapesQuote key.toList with
    | true =>
      let rest := '.' :: (keyTexts keys ++ literalQuote :: after)
      have hstops : StopsBefore true literalQuote (keyText key.toList ++ '"' :: rest) rest :=
        stopsBefore_keyText hkey
      obtain ⟨content, left, hread, hlength⟩ := passes_doubleQuote.stopsBefore hstops
      refine ⟨content, left, by simpa using hread, ?_⟩
      rw [length_cons, length_append, length_cons] at hlength
      omega
    | false =>
      have hlater : ∃ key ∈ keys, escapesQuote key.toList = true := by simpa [hkey] using h
      have hstops := passes_doubleQuote.stopsBefore
        ((passes_keyText hkey).stopsBefore (passes_dot.stopsBefore (ih hlater)))
      simpa using hstops

/-- Where backslashes escape, the literal of a path ends at its last quote if and only if no key
escapes a quote. -/
theorem readLiteral_keyPath_iff (keys : List String) {after : List Char}
    (hafter : after.head? ≠ some literalQuote) :
    (∃ content, mysql.readLiteral ((quoteLiteral (keyPath keys)).toList ++ after) =
      some (content, after)) ↔ ∀ key ∈ keys, escapesQuote key.toList = false := by
  have hroot : Passes true literalQuote ['$', '.'] :=
    (passes_plain (c := '$') (by decide) rfl).append passes_dot
  rw [readLiteral_quoteLiteral, doubled_keyPath, escapes]
  constructor
  · rintro ⟨content, hread⟩ key hkey
    cases hescapes : escapesQuote key.toList with
    | false => rfl
    | true =>
      have hkeys : StopsBefore true literalQuote (keyTexts keys ++ literalQuote :: after) after :=
        stopsBefore_keyTexts ⟨key, hkey, hescapes⟩
      obtain ⟨content', left, hread', hlength⟩ := hroot.stopsBefore hkeys
      cases hread.symm.trans hread'
      omega
  · intro h
    exact (hroot.append (passes_keyTexts h)).read_close hafter

end Dialect

namespace Lowering

/-- The literals of the text for a path into a JSON field. One database reads each of them from its
opening quote to its closing quote as the key it was made from, in the order of the keys. The other
one, where backslashes escape, reads its literal to the closing quote if and only if no key has a
backslash that escapes a quote. -/
theorem columnOf_literals {c : Condition} {field : Field} {row path : String}
    (hpath : c.rest? = some path) (hjson : field.type = .json) :
    let keys := Text.split '.' path
    (∀ left key right, keys = left ++ key :: right → ∃ before : String,
      (columnOf c field row).sql .postgres =
        before ++ (Dialect.quoteLiteral key ++ Dialect.arrows right) ∧
      Dialect.postgres.readLiteral (Dialect.quoteLiteral key ++ Dialect.arrows right).toList =
        some (key.toList, (Dialect.arrows right).toList)) ∧
    ∃ before : String, (columnOf c field row).sql .mysql =
        before ++ (Dialect.quoteLiteral (Dialect.keyPath keys) ++ "))") ∧
      ((∃ content, Dialect.mysql.readLiteral
          (Dialect.quoteLiteral (Dialect.keyPath keys) ++ "))").toList = some (content, "))".toList)) ↔
        ∀ key ∈ keys, Dialect.escapesQuote key.toList = false) := by
  intro keys
  have hcolumn : columnOf c field row = .jsonPath ⟨some row, field.columnName⟩ keys := by
    simp [columnOf, hpath, hjson, keys]
  rw [hcolumn]
  refine ⟨fun left key right hkeys => ?_, ?_⟩
  · obtain ⟨before, hbefore⟩ := Dialect.arrows_append left key right
    refine ⟨(Identifier.mk (some row) field.columnName).sql .postgres ++ before, ?_, ?_⟩
    · rw [ColumnRef.sql, Dialect.jsonText_postgres, hkeys, hbefore, ← String.append_assoc]
    · rw [String.toList_append, Dialect.readLiteral_quoteLiteral, Dialect.escapes]
      exact Quoted.read_doubled key.toList (Dialect.head?_arrows right)
  · refine ⟨"JSON_UNQUOTE(JSON_EXTRACT(" ++
      (Identifier.mk (some row) field.columnName).sql .mysql ++ ", ", ?_, ?_⟩
    · rw [ColumnRef.sql, Dialect.jsonText_mysql, String.append_assoc]
    · rw [String.toList_append]
      exact Dialect.readLiteral_keyPath_iff keys (by decide)

/-- Quotes of both kinds in the keys. -/
theorem columnOf_literals_quotes :
    let c : Condition := ⟨"j.it's.a\"b", .equal, .scalar (.text "x"), none⟩
    let field : Field := { name := "j", type := .json }
    (c.rest? = some "it's.a\"b" ∧ field.type = .json ∧
      Text.split '.' "it's.a\"b" = [] ++ "it's" :: ["a\"b"]) ∧
    (∃ before : String, (columnOf c field "a").sql .postgres =
        before ++ (Dialect.quoteLiteral "it's" ++ Dialect.arrows ["a\"b"]) ∧
      Dialect.postgres.readLiteral (Dialect.quoteLiteral "it's" ++ Dialect.arrows ["a\"b"]).toList =
        some ("it's".toList, (Dialect.arrows ["a\"b"]).toList)) ∧
    ∃ content, Dialect.mysql.readLiteral
      (Dialect.quoteLiteral (Dialect.keyPath ["it's", "a\"b"]) ++ "))").toList =
        some (content, "))".toList) := by
  intro c field
  have hpath : c.rest? = some "it's.a\"b" := by decide
  have hkeys : Text.split '.' "it's.a\"b" = [] ++ "it's" :: ["a\"b"] := by decide
  have hjson : field.type = .json := rfl
  obtain ⟨hpostgres, before, -, hmysql⟩ := @columnOf_literals c field "a" _ hpath hjson
  rw [hkeys] at hmysql
  exact ⟨⟨hpath, hjson, hkeys⟩, hpostgres _ _ _ hkeys, hmysql.2 (by decide)⟩

/-- A condition on the key `\'` is accepted. Where backslashes escape, its literal is over before the
double quote behind the key, and the rest of the key stands outside. -/
theorem columnOf_literals_escaped :
    let c : Condition := ⟨"j.\\'", .equal, .scalar (.text "x"), none⟩
    let field : Field := { name := "j", type := .json }
    Condition.of "j.\\'" .equal (.scalar (.text "x")) = .ok c ∧
      (columnOf c field "a").sql .mysql =
        "JSON_UNQUOTE(JSON_EXTRACT(" ++ (Identifier.mk (some "a") "j").sql .mysql ++ ", " ++
          Dialect.quoteLiteral "$.\"\\'\"" ++ "))" ∧
      Dialect.mysql.readLiteral (Dialect.quoteLiteral "$.\"\\'\"" ++ "))").toList =
        some ("$.\"'".toList, "\"'))".toList) := by
  intro c field
  exact ⟨rfl, by decide, by decide⟩

end Lowering

end QueryDomain
