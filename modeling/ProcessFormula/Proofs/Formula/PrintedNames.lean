import ProcessFormula.Proofs.Formula.Modes
import ProcessFormula.Proofs.Grammar.Acceptance
import ProcessFormula.Proofs.Grammar.PrintedTrees

/-!
The printed names of variables. Text can name whatever lacks one of the two quotation marks for
names. The printed name is put between single quotes unless it consists of name characters, and so
it is read back as the name only if there is no single quote in it and a bare one does not start
with a digit.
-/

namespace ProcessFormula

namespace Grammar

open Text Lexeme ProcessFormula.Parser

theorem singleQuote_notMem {chars : List Char} (h : ∀ c ∈ chars, isNameChar c = true) :
    '\x27' ∉ chars := by
  intro hmem
  have hchar := h _ hmem
  revert hchar
  decide

theorem isNameChar_of_isBareName {name : String} (h : Expr.isBareName name = true) {c : Char}
    (hc : c ∈ name.toList) : isNameChar c = true := by
  simp only [Expr.isBareName, Bool.and_eq_true] at h
  exact List.all_eq_true.mp h.2 c hc

/-- A lexeme does not have both quotation marks in the name that it reads. -/
theorem Reads.quote_notMem {position : Position} {s rest : List Char} {token : Token}
    (h : Reads position s token rest) {name : String} (hname : token.variableName? = some name) :
    '\x27' ∉ name.toList ∨ '\x60' ∉ name.toList := by
  cases h with
  | number | function | text => cases hname
  | bare hrun =>
      obtain rfl := Option.some.inj hname
      rw [String.toList_ofList]
      exact .inl (singleQuote_notMem (runs_name_iff.mp hrun.isViable))
  | quoted hquote hmem =>
      obtain rfl := Option.some.inj hname
      rw [String.toList_ofList]
      rcases hquote with rfl | rfl
      · exact .inl hmem
      · exact .inr hmem
  | mark hspelling =>
      have hkind := kind_eq_mark hspelling
      cases token with
      | quoted | bare => cases hkind
      | _ => cases hname

/-- No name in a tree has both quotation marks. -/
theorem Sentence.quote_notMem {scope : Scope} {text : String} {tree : Expr String}
    (h : Sentence scope text tree) {name : String} (hname : name ∈ tree.vars) :
    '\x27' ∉ name.toList ∨ '\x60' ∉ name.toList := by
  obtain ⟨tokens, hlexes, hderives, -⟩ := h
  rw [← hderives.variableNames_eq] at hname
  obtain ⟨token, htoken, hread⟩ := List.mem_filterMap.mp hname
  obtain ⟨_, _, _, hreads⟩ := hlexes.exists_reads htoken
  exact hreads.quote_notMem hread

/-- A variable is written by its name, with or without quotation marks, or in parentheses. -/
theorem Derives.head_of_var {scope : Scope} {depth : Nat} {level : Level} {row : List Token}
    {name : String} (h : Derives scope depth level row (.var name)) :
    ∃ token ∈ row.head?, token = .opening ∨ token = .quoted name ∨ token = .bare name := by
  generalize htree : Expr.var name = tree at h
  induction h with
  | chains _ ih | single _ ih | plain _ ih | unsigned _ ih => exact ih htree
  | quoted | bare =>
      obtain rfl := Expr.var.inj htree
      exact ⟨_, rfl, by simp⟩
  | parenthesised => exact ⟨.opening, rfl, .inl rfl⟩
  | conditional | chain | not | number | negativeNumber | text | negativeText | negative | call =>
      cases htree

/-- The first lexeme of a text that stands for a variable. -/
theorem Sentence.reads_of_var {scope : Scope} {text name : String}
    (h : Sentence scope text (.var name)) : ∃ token rest,
      Reads .operand (skipBlanks text.toList) token rest ∧
        (token = .opening ∨ token = .quoted name ∨ token = .bare name) := by
  obtain ⟨tokens, hlexes, hderives, -⟩ := h
  obtain ⟨token, htoken, hkind⟩ := hderives.head_of_var
  obtain ⟨more, rfl⟩ := List.head?_eq_some_iff.mp htoken
  cases hlexes with
  | cons hfirst _ => exact ⟨token, _, hfirst, hkind⟩

theorem Reads.quote_notMem_of_quoted {c : Char} {s rest : List Char} {name : String}
    (h : Reads .operand (c :: s) (.quoted name) rest) : c ∉ name.toList := by
  generalize htext : c :: s = text, htoken : Token.quoted name = token at h
  cases h with
  | quoted _ hname =>
      obtain ⟨rfl, -⟩ := List.cons.inj htext
      obtain rfl := Token.quoted.inj htoken
      rwa [String.toList_ofList]
  | mark hspelling =>
      have hkind := kind_eq_mark hspelling
      rw [← htoken] at hkind
      cases hkind
  | number | bare | function | text => cases htoken

section

variable {scope : Scope} {name : String} (hknown : scope.knows name = true)
include hknown

/-- A name in quotes stands for the variable if no quote of the same kind stands in it. -/
theorem sentence_quoted_iff {quote : Char} (hquote : quote = '\x27' ∨ quote = '\x60') :
    Sentence scope (String.ofList (quote :: (name.toList ++ [quote]))) (.var name) ↔
      quote ∉ name.toList := by
  have hkind : kindAt .operand quote = .quoted := if_pos hquote
  have hsolid : StartsSolid (quote :: (name.toList ++ [quote])) := startsSolid_quote hquote _
  constructor
  · intro h
    obtain ⟨token, rest, hreads, htoken⟩ := h.reads_of_var
    rw [String.toList_ofList, skipBlanks_of_startsSolid hsolid] at hreads
    obtain ⟨c, more, hc, hkind'⟩ := hreads.kind hsolid
    obtain ⟨rfl, -⟩ := List.cons.inj hc
    rw [hkind] at hkind'
    rcases htoken with rfl | rfl | rfl
    · cases hkind'
    · exact hreads.quote_notMem_of_quoted
    · cases hkind'
  · intro hname
    have hlexes : Lexes .operand (quote :: (name.toList ++ [quote])) [.quoted name] .operator [] :=
      .one (reads_quoted hquote hname [])
    have hderives : Derives scope 0 .logical [.quoted name] (.var name) :=
      logical_of_chain (derives_chain (.plain (.unsigned (.quoted hknown))) .product)
    refine ⟨[.quoted name], ?_, hderives, height_var_le name⟩
    rwa [String.toList_ofList, skipBlanks_of_startsSolid hsolid]

/-- A name without quotes stands for the variable if no digit makes it start as a number. -/
theorem sentence_bare_iff (hbare : Expr.isBareName name = true) :
    Sentence scope name (.var name) ↔ ∀ c ∈ name.toList.head?, c.isDigit = false := by
  constructor
  · intro h c hc
    have hsolid : StartsSolid name.toList := by
      intro d hd
      exact isBlank_of_isNameChar (isNameChar_of_isBareName hbare (List.mem_of_head? hd))
    obtain ⟨token, rest, hreads, htoken⟩ := h.reads_of_var
    rw [skipBlanks_of_startsSolid hsolid] at hreads
    obtain ⟨d, more, hd, hkind⟩ := hreads.kind hsolid
    rw [hd] at hc
    obtain rfl : d = c := by simpa using hc
    rw [← Bool.not_eq_true]
    intro hdigit
    rw [kindAt_of_startsNumber (by simp [startsNumber, hdigit])] at hkind
    rcases htoken with rfl | rfl | rfl
    · cases hkind
    · cases hkind
    · cases hkind
  · intro hhead
    have hname := nameText_of_isBareName hbare hhead
    exact sentence_of_name (List.all_eq_true.mpr hname.all) hname.head hknown

/-- The printed name of a variable stands for the variable if it is not taken for a number and no
single quote in it ends it. -/
theorem sentence_nameText_iff :
    Sentence scope (Expr.nameText name) (.var name) ↔ '\x27' ∉ name.toList ∧
      (Expr.isBareName name = true → ∀ c ∈ name.toList.head?, c.isDigit = false) := by
  unfold Expr.nameText
  split
  · next hbare =>
    have hquote : '\x27' ∉ name.toList :=
      singleQuote_notMem fun _ hc => isNameChar_of_isBareName hbare hc
    rw [sentence_bare_iff hknown hbare]
    exact ⟨fun h => ⟨hquote, fun _ => h⟩, fun h => h.2 hbare⟩
  · next hbare =>
    have htext : "'" ++ name ++ "'" = String.ofList ('\x27' :: (name.toList ++ ['\x27'])) := by
      rw [← String.toList_inj]
      simp
    rw [htext, sentence_quoted_iff hknown (.inl rfl)]
    exact ⟨fun h => ⟨h, fun hname => absurd hname hbare⟩, fun h => h.1⟩

end

end Grammar

namespace Formula

open Grammar

/-- Some text, compiled in auto-detect mode, gives a formula with a variable of this name. -/
def Usable (name : String) : Prop :=
  ∃ registry now text store f store',
    compile registry now .autoDetect [] text store = .ok (f, store') ∧ f.root.references name = true

/-- The printed text of the variable, compiled in auto-detect mode, gives a variable of its name. -/
def PrintsItself (registry : Registry) (now : Timestamp) (store : Store) (v : Variable) : Prop :=
  ∃ f store' w,
    compile registry now .autoDetect [] ((Expr.var v).text Variable.name) store = .ok (f, store') ∧
      f.root = .var w ∧ w.name = v.name

section

variable {registry : Registry} {now : Timestamp} {text name : String} {store store' : Store}
  {f : Formula}

theorem sentence_of_compile
    (h : compile registry now .autoDetect [] text store = .ok (f, store')) :
    Sentence (scope registry now .autoDetect []) text (f.root.map Variable.name) :=
  sentence_of_parse (parse_of_compile h).1

/-- A text that stands for a variable compiles to a variable of the name. -/
theorem compile_of_sentence_var (h : Sentence (scope registry now .autoDetect []) text (.var name))
    (store : Store) : ∃ f store' v,
      compile registry now .autoDetect [] text store = .ok (f, store') ∧
        f.root = .var v ∧ v.name = name :=
  ⟨_, _, _, compile_of_parse (parse_of_sentence h) store, rfl, bind_name ..⟩

/-- The names that text can use are those that lack one of the quotation marks. -/
theorem usable_iff : Usable name ↔ '\x27' ∉ name.toList ∨ '\x60' ∉ name.toList := by
  constructor
  · rintro ⟨registry, now, text, store, f, store', h, hname⟩
    obtain ⟨v, hv, hsame⟩ := List.any_eq_true.mp hname
    refine (sentence_of_compile h).quote_notMem ?_
    rw [Expr.vars_map]
    exact List.mem_map.mpr ⟨v, hv, beq_iff_eq.mp hsame⟩
  · intro h
    obtain ⟨text, hsentence⟩ : ∃ text,
        Sentence (scope .builtinsOnly ⟨0, 0⟩ .autoDetect []) text (.var name) := by
      rcases h with h | h
      · exact ⟨_, (sentence_quoted_iff rfl (.inl rfl)).mpr h⟩
      · exact ⟨_, (sentence_quoted_iff rfl (.inr rfl)).mpr h⟩
    obtain ⟨f, store', v, hcompile, hroot, hname⟩ := compile_of_sentence_var hsentence .empty
    refine ⟨_, _, text, _, f, store', hcompile, ?_⟩
    simp [Expr.references, hroot, Expr.vars, hname]

/-- A name prints itself exactly if its printed text is a sentence that consists of the name. -/
theorem printsItself_iff_sentence {v : Variable} :
    PrintsItself registry now store v ↔
      Sentence (scope registry now .autoDetect []) (Expr.nameText v.name) (.var v.name) := by
  constructor
  · rintro ⟨f, store', w, hcompile, hroot, hname⟩
    have hsentence := sentence_of_compile hcompile
    rwa [hroot, Expr.map, hname] at hsentence
  · intro h
    exact compile_of_sentence_var h store

end

/-- A variable that text can use prints itself exactly if there is no single quote in its name and
the name, if it is printed bare, does not start with an ASCII digit. -/
theorem printsItself_iff (registry : Registry) (now : Timestamp) (store : Store) (v : Variable) :
    (Usable v.name ↔ '\x27' ∉ v.name.toList ∨ '\x60' ∉ v.name.toList) ∧
      (PrintsItself registry now store v ↔ '\x27' ∉ v.name.toList ∧
        (Expr.isBareName v.name = true → ∀ c ∈ v.name.toList.head?, c.isDigit = false)) :=
  ⟨usable_iff, printsItself_iff_sentence.trans (sentence_nameText_iff rfl)⟩

/-- The text `'12'` uses the name `12`, which is printed as a number. -/
theorem usable_not_printsItself :
    ¬ ∀ (registry : Registry) (now : Timestamp) (store : Store) (v : Variable),
      Usable v.name → PrintsItself registry now store v := by
  intro hall
  have husable : Usable "12" := usable_iff.mpr (.inl (by decide))
  have hprints := hall .builtinsOnly ⟨0, 0⟩ .empty ⟨"12", 0⟩ husable
  obtain ⟨-, hhead⟩ := (sentence_nameText_iff rfl).mp (printsItself_iff_sentence.mp hprints)
  have hdigit : '1'.isDigit = false := hhead (by decide) '1' rfl
  cases hdigit

end Formula

end ProcessFormula
