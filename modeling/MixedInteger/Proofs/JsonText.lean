import MixedInteger.Proofs.NumberText

/-!
# Texts of values

What is written as JSON is read back as the value that was written. A text is looked at together
with what follows it: numbers have no end of their own, so something that cannot continue them must
follow, and in an object a comma or a brace does.

* `Written`: a text on one line that the reader takes for a value, wherever it stands;
* `ReadAs`: such a text, with what a reader makes of its value;
* `written_objectText`: an object is written if its fields are;
* `Written.parse?_eq`: a written text by itself is a document with this value;
* `ReadsBack`: the digits of a finite number are read as that number.
-/

namespace MixedInteger.Json

/-! ## Tokens -/

/-- The characters are cut into these tokens. -/
def Tokens (cs : List Char) (ts : List Token) : Prop := tokensOf? cs.length cs = some ts

theorem tokensOf?_eq_bind {size : Nat} {c : Char} {cs : List Char} (h : isSpace c = false) :
    tokensOf? (size + 1) (c :: cs) =
      (Token.scan? (c :: cs)).bind fun p => (tokensOf? size p.2).map (p.1 :: ·) := by
  simp only [tokensOf?, h, Bool.false_eq_true, if_false, Option.map_eq_bind]
  rfl

theorem tokensOf?_mono {size size' : Nat} {cs : List Char} {ts : List Token}
    (h : tokensOf? size cs = some ts) (hle : size ≤ size') : tokensOf? size' cs = some ts := by
  induction size generalizing size' cs ts with
  | zero =>
    cases cs with
    | nil => simpa [tokensOf?] using h
    | cons c cs => cases h
  | succ size ih =>
    obtain ⟨k, rfl⟩ : ∃ k, size' = k + 1 := ⟨size' - 1, by omega⟩
    cases cs with
    | nil => simpa [tokensOf?] using h
    | cons c cs =>
      cases hspace : isSpace c with
      | true =>
        simp only [tokensOf?, hspace, if_true] at h ⊢
        exact ih h (by omega)
      | false =>
        rw [tokensOf?_eq_bind hspace] at h ⊢
        obtain ⟨p, hp, hts⟩ := Option.bind_eq_some_iff.1 h
        obtain ⟨us, hus, rfl⟩ := Option.map_eq_some_iff.1 hts
        simp [hp, ih hus (Nat.le_of_succ_le_succ hle)]

theorem not_isSpace_of_scan? {c : Char} {cs rest : List Char} {t : Token}
    (h : Token.scan? (c :: cs) = some (t, rest)) : isSpace c = false := by
  cases hspace : isSpace c with
  | false => rfl
  | true =>
    have hc : c = ' ' ∨ c = '\n' ∨ c = '\t' ∨ c = '\r' := by
      simpa [isSpace, or_assoc] using hspace
    obtain rfl | rfl | rfl | rfl := hc <;> cases h

/-- A token at the front comes before the tokens of what follows it. -/
theorem Tokens.cons {text rest : List Char} {t : Token} {ts : List Token} (hne : text ≠ [])
    (hscan : Token.scan? (text ++ rest) = some (t, rest)) (h : Tokens rest ts) :
    Tokens (text ++ rest) (t :: ts) := by
  obtain ⟨c, cs, rfl⟩ := List.exists_cons_of_ne_nil hne
  rw [List.cons_append] at hscan ⊢
  -- The token has at least one character, and the others are steps to spare.
  have hrest : tokensOf? (cs ++ rest).length rest = some ts := tokensOf?_mono h (by simp)
  rw [Tokens, List.length_cons, tokensOf?_eq_bind (not_isSpace_of_scan? hscan), hscan]
  simp only [Option.bind_some, hrest, Option.map_some]

/-- The text gives these tokens, whatever follows it. -/
def Opens (text : List Char) (ts : List Token) : Prop :=
  ∀ rest us, Tokens rest us → Tokens (text ++ rest) (ts ++ us)

/-- The text gives these tokens if nothing follows that continues a number. -/
def Lexes (text : List Char) (ts : List Token) : Prop :=
  ∀ rest us, EndsNumber rest → Tokens rest us → Tokens (text ++ rest) (ts ++ us)

theorem Opens.lexes {text : List Char} {ts : List Token} (h : Opens text ts) : Lexes text ts :=
  fun rest us _ => h rest us

theorem Opens.append {a b : List Char} {s t : List Token} (ha : Opens a s) (hb : Opens b t) :
    Opens (a ++ b) (s ++ t) := by
  intro rest us h
  simpa using ha _ _ (hb _ _ h)

theorem Lexes.append {a b : List Char} {s t : List Token} (ha : Lexes a s)
    (hends : ∀ rest, EndsNumber (b ++ rest)) (hb : Opens b t) : Opens (a ++ b) (s ++ t) := by
  intro rest us h
  simpa using ha _ _ (hends rest) (hb _ _ h)

theorem opens_of_scan? {text : List Char} {t : Token} (hne : text ≠ [])
    (h : ∀ rest, Token.scan? (text ++ rest) = some (t, rest)) : Opens text [t] :=
  fun rest _ => Tokens.cons hne (h rest)

/-! ## Strings -/

/-- No character needs an escape. -/
def Plain (s : String) : Prop := ∀ c ∈ s.toList, c ≠ '"' ∧ c ≠ '\\' ∧ 0x20 ≤ c.toNat

theorem pieces?_plain {cs : List Char}
    (h : ∀ c ∈ cs, c ≠ '"' ∧ c ≠ '\\' ∧ 0x20 ≤ c.toNat) (rest : List Char) :
    pieces? (cs ++ '"' :: rest) = some (cs.map .char, rest) := by
  induction cs with
  | nil => simp [pieces?]
  | cons c cs ih =>
    obtain ⟨hquote, hescape, hcontrol⟩ := h c List.mem_cons_self
    have hcs := ih fun x hx => h x (List.mem_cons_of_mem c hx)
    have : ¬ c.toNat < 0x20 := by omega
    simp [pieces?, hescape, this, hcs]

theorem chars?_map (cs : List Char) : chars? (cs.map .char) = some cs := by
  induction cs with
  | nil => rfl
  | cons c cs ih => simp [chars?, ih]

theorem opens_plainString {s : String} (h : Plain s) :
    Opens (plainString s).toList [.string (some s)] := by
  apply opens_of_scan? (by simp [plainString])
  intro rest
  have hpieces := pieces?_plain h rest
  simp [plainString, Token.scan?, string?, hpieces, chars?_map]

/-! ## Values -/

/-- The reader takes these tokens for this value, wherever a value may stand. -/
def Reads (ts : List Token) (v : Json) : Prop :=
  ∀ stack us, read? .value stack (ts ++ us) = read? (.after v) stack us

/-- A text on one line that stands for a value. -/
structure Written (text : String) (v : Json) : Prop where
  oneLine : '\n' ∉ text.toList
  reads : ∃ ts, Lexes text.toList ts ∧ Reads ts v

/-- A written text by itself is a document. -/
theorem Written.parse?_eq {text : String} {v : Json} (h : Written text v) :
    parse? text = some v := by
  obtain ⟨ts, hlexes, hreads⟩ := h.reads
  have htokens : tokenize? text = some ts := by
    simpa [Tokens, tokenize?] using hlexes [] [] (by simp [EndsNumber]) rfl
  simpa [parse?, htokens, read?] using hreads [] []

/-- The value of a text by itself. -/
def valueOf (text : String) : Json := (parse? text).getD .null

theorem Written.valueOf_eq {text : String} {v : Json} (h : Written text v) :
    valueOf text = v := by
  rw [valueOf, h.parse?_eq, Option.getD_some]

/-- A text that stands for a value, and what a reader makes of that value. -/
structure ReadAs {β : Type} (text : String) (read : Json → Option β) (result : Option β) :
    Prop where
  written : Written text (valueOf text)
  read_eq : read (valueOf text) = result

theorem Written.readAs {β : Type} {text : String} {v : Json} (h : Written text v)
    (read : Json → Option β) : ReadAs text read (read v) where
  written := h.valueOf_eq.symm ▸ h
  read_eq := h.valueOf_eq.symm ▸ rfl

theorem ReadAs.bind_eq {β : Type} {text : String} {read : Json → Option β} {result : Option β}
    (h : ReadAs text read result) : (parse? text).bind read = result := by
  rw [h.written.parse?_eq, Option.bind_some, h.read_eq]

theorem reads_scalar {t : Token} {v : Json} (h : scalar? t = some v) : Reads [t] v := by
  intro stack us
  have hbegin : beginValue? stack t = some (.after v, stack) := by
    cases t <;> simp_all [scalar?, beginValue?]
  simp [read?, advance?, hbegin]

theorem written_null : Written "null" .null where
  oneLine := by decide
  reads := ⟨[.null], (opens_of_scan? (by simp) fun _ => rfl).lexes, reads_scalar rfl⟩

theorem written_bool (b : Bool) : Written (if b then "true" else "false") (.bool b) := by
  cases b with
  | true => exact ⟨by decide, [.bool true], (opens_of_scan? (by simp) fun _ => rfl).lexes,
      reads_scalar rfl⟩
  | false => exact ⟨by decide, [.bool false], (opens_of_scan? (by simp) fun _ => rfl).lexes,
      reads_scalar rfl⟩

theorem written_plainString {s : String} (h : Plain s) :
    Written (plainString s) (.string (some s)) where
  oneLine hmem := by
    have hin : '\n' ∈ s.toList := by simpa [plainString] using hmem
    exact absurd (h '\n' hin).2.2 (by decide)
  reads := ⟨[.string (some s)], (opens_plainString h).lexes, reads_scalar rfl⟩

/-- A name is read as what the reader knows by that name. -/
theorem readAs_plainString {β : Type} {s : String} {read : Json → Option β} {x : β} (h : Plain s)
    (hread : read (.string (some s)) = some x) : ReadAs (plainString s) read (some x) :=
  hread ▸ (written_plainString h).readAs read

/-! ## Numbers -/

theorem scan?_number {c : Char} {cs rest : List Char} {n : Number}
    (hc : c.isDigit = true ∨ c = '-') (h : number? (c :: cs) = some (n, rest)) :
    Token.scan? (c :: cs) = some (.number n, rest) := by
  unfold Token.scan?
  split
  case h_12 => simp [h]
  all_goals simp_all

theorem Spelling.Legal.signed_head {s : Spelling} (h : s.Legal) (negative : Bool) :
    ∃ c cs, s.signed negative = c :: cs ∧ (c.isDigit = true ∨ c = '-') := by
  cases negative with
  | true => exact ⟨'-', s.chars, rfl, .inr rfl⟩
  | false =>
    obtain ⟨c, cs, hcs, hc⟩ := h.head
    exact ⟨c, cs, hcs, .inl hc⟩

theorem Spelling.Legal.oneLine {s : Spelling} (h : s.Legal) (negative : Bool) :
    '\n' ∉ s.signed negative := by
  have hdigits : ∀ ds : List Char, (∀ c ∈ ds, c.isDigit = true) → '\n' ∉ ds :=
    fun ds hds hmem => absurd (hds '\n' hmem) (by decide)
  have hwhole := hdigits s.whole h.whole_digits
  have hfraction : '\n' ∉ Spelling.fractionChars s.fraction := by
    have := hdigits s.fraction h.fraction_digits
    cases hs : s.fraction <;> simp_all [Spelling.fractionChars]
  have hexponent : '\n' ∉ Spelling.exponentChars s.exponent := by
    cases hs : s.exponent with
    | none => simp [Spelling.exponentChars]
    | some e =>
      have := hdigits e.2 (h.exponent_digits e hs).2
      cases he : e.1 <;> simp_all [Spelling.exponentChars]
  cases negative <;> simp [Spelling.signed, Spelling.chars, hwhole, hfraction, hexponent]

theorem written_spelling {text : String} {s : Spelling} {negative : Bool} (h : s.Legal)
    (htext : text.toList = s.signed negative) : Written text (.number (s.number negative)) where
  oneLine := htext ▸ h.oneLine negative
  reads := by
    refine ⟨[.number (s.number negative)], ?_, reads_scalar rfl⟩
    intro rest us hends htokens
    obtain ⟨c, cs, hcs, hc⟩ := h.signed_head negative
    have hnumber := number?_signed h negative hends
    rw [hcs] at hnumber
    rw [htext, hcs]
    exact Tokens.cons (List.cons_ne_nil c cs) (scan?_number hc hnumber) htokens

/-- The JSON number of a word. -/
def ofWord (n : Nat) : Json := .number ((Spelling.word n).number false)

theorem written_word (n : Nat) : Written (toString n) (ofWord n) :=
  written_spelling (Spelling.legal_word n) (toList_toString n)

theorem asWord?_ofWord {n : Nat} (h : n < Number.wordLimit) : asWord? (ofWord n) = some n :=
  toWord?_word h

/-- A finite number is written as a JSON number. -/
theorem written_json {x : Float} (h : Scalar.isFinite x = true) :
    ∃ n, Written (Scalar.json x) (.number n) := by
  obtain ⟨negative, s, hs, htext⟩ := json_spelled h
  exact ⟨s.number negative, written_spelling hs htext⟩

/-- The text of a finite number, read as a document, is the number. This depends on how the digits
are rounded when they are read. -/
def ReadsBack (x : Float) : Prop :=
  Scalar.isFinite x = true → (parse? (Scalar.json x)).bind asFloat? = some x

instance (x : Float) : Decidable (ReadsBack x) := inferInstanceAs (Decidable (_ → _))

/-- A number is written, and read as itself exactly if it is finite. -/
theorem ReadsBack.readAs {x : Float} (h : ReadsBack x) :
    ReadAs (Scalar.json x) asFloat? (if Scalar.isFinite x = true then some x else none) := by
  cases hx : Scalar.isFinite x with
  | false =>
    rw [json_of_infinite hx]
    exact written_null.readAs asFloat?
  | true =>
    obtain ⟨n, hn⟩ := written_json hx
    have hread := h hx
    rw [hn.parse?_eq, Option.bind_some] at hread
    rw [if_pos rfl, ← hread]
    exact hn.readAs asFloat?

theorem ReadsBack.readAs_finite {x : Float} (h : ReadsBack x) (hx : Scalar.isFinite x = true) :
    ReadAs (Scalar.json x) asFloat? (some x) := by
  simpa [hx] using h.readAs

theorem readAs_word {n : Nat} (h : n < Number.wordLimit) :
    ReadAs (toString n) asWord? (some n) :=
  asWord?_ofWord h ▸ (written_word n).readAs asWord?

/-- A value that may be missing: null stands for nothing, and is no value of its own. -/
theorem readAs_option {β : Type} {text : β → String} {read : Json → Option β} {o : Option β}
    (hnull : read .null = none) (h : ∀ x ∈ o, ReadAs (text x) read (some x)) :
    ReadAs (o.elim "null" text) (orNull? read) (some o) := by
  cases o with
  | none => exact written_null.readAs (orNull? read)
  | some x =>
    obtain ⟨hwritten, hread⟩ := h x rfl
    refine ⟨hwritten, ?_⟩
    change orNull? read (valueOf (text x)) = some (some x)
    cases hv : valueOf (text x) <;> simp_all [orNull?]

/-! ## Objects -/

/-- A field that can stand in an object. -/
structure Legible (f : String × String) : Prop where
  key : Plain f.1
  text : Written f.2 (valueOf f.2)

/-- A field as a member of the object. -/
def entry (f : String × String) : Content × Json := (some f.1, valueOf f.2)

def fieldChars (f : String × String) : List Char := (plainString f.1).toList ++ ':' :: f.2.toList

/-- What follows a field: the others, each behind a comma, and the closing brace. -/
def tailChars : List (String × String) → List Char
  | [] => ['\x7d']
  | f :: fs => ',' :: (fieldChars f ++ tailChars fs)

theorem objectText_cons (f : String × String) (fs : List (String × String)) :
    (objectText (f :: fs)).toList = '\x7b' :: (fieldChars f ++ tailChars fs) := by
  have hfields : ∀ (fs : List (String × String)) (f : String × String),
      List.intercalate [','] ((f :: fs).map fieldChars) ++ ['\x7d'] =
        fieldChars f ++ tailChars fs := by
    intro fs
    induction fs with
    | nil => simp [tailChars]
    | cons g gs ih =>
      intro f
      have hg := ih g
      simp_all [tailChars]
  have hchars : String.toList ∘ (fun f => plainString f.1 ++ ":" ++ f.2) = fieldChars := by
    funext f
    simp [fieldChars]
  simp only [objectText, String.toList_append, String.toList_intercalate, List.map_map, hchars]
  simpa using hfields fs f

theorem endsNumber_tailChars (fs : List (String × String)) (rest : List Char) :
    EndsNumber (tailChars fs ++ rest) := by
  intro c hc
  cases fs with
  | nil =>
    obtain rfl : '\x7d' = c := by simpa [tailChars] using hc
    decide
  | cons f fs =>
    obtain rfl : ',' = c := by simpa [tailChars] using hc
    decide

/-- A field moves the reader from where a key may stand to behind the value. -/
theorem Legible.tokens {f : String × String} (h : Legible f) :
    ∃ ts, Lexes (fieldChars f) (.string (some f.1) :: .colon :: ts) ∧ Reads ts (valueOf f.2) := by
  obtain ⟨ts, hlexes, hreads⟩ := h.text.reads
  have hcolon : Opens [':'] [.colon] := opens_of_scan? (by simp) fun _ => rfl
  have hkey := (opens_plainString h.key).append hcolon
  refine ⟨ts, ?_, hreads⟩
  intro rest us hends htokens
  simpa [fieldChars] using hkey _ _ (hlexes rest us hends htokens)

/-- The other fields and the brace move the reader from behind a value to behind the object. -/
theorem tailChars_reads {fs : List (String × String)} (h : ∀ f ∈ fs, Legible f) :
    ∃ ts, Opens (tailChars fs) ts ∧ ∀ done key v stack us,
      read? (.after v) (.object done key :: stack) (ts ++ us) =
        read? (.after (.object (((key, v) :: done).reverse ++ fs.map entry))) stack us := by
  -- The frame holds what is finished in reverse, and the statement is for any of it.
  induction fs with
  | nil =>
    refine ⟨[.closeBrace], opens_of_scan? (by simp [tailChars]) fun _ => rfl, ?_⟩
    intro done key v stack us
    simp [read?, advance?]
  | cons f fs ih =>
    obtain ⟨tail, htail, hread⟩ := ih fun g hg => h g (List.mem_cons_of_mem f hg)
    obtain ⟨ts, hlexes, hvalue⟩ := (h f List.mem_cons_self).tokens
    have hcomma : Opens [','] [.comma] := opens_of_scan? (by simp) fun _ => rfl
    refine ⟨_, hcomma.append (hlexes.append (endsNumber_tailChars fs) htail), ?_⟩
    intro done key v stack us
    simp only [List.cons_append, List.nil_append, List.append_assoc, read?, advance?]
    rw [hvalue, hread]
    simp [entry]

theorem Legible.oneLine {f : String × String} (h : Legible f) : '\n' ∉ fieldChars f := by
  have hkey := (written_plainString h.key).oneLine
  have htext := h.text.oneLine
  simp [fieldChars, hkey, htext]

theorem oneLine_tailChars {fs : List (String × String)} (h : ∀ f ∈ fs, Legible f) :
    '\n' ∉ tailChars fs := by
  induction fs with
  | nil => decide
  | cons f fs ih =>
    have hf := (h f List.mem_cons_self).oneLine
    have hfs := ih fun g hg => h g (List.mem_cons_of_mem f hg)
    simp [tailChars, hf, hfs]

/-- An object is written if its fields are. -/
theorem written_objectText {fs : List (String × String)} (h : ∀ f ∈ fs, Legible f) :
    Written (objectText fs) (.object (fs.map entry)) := by
  have hbrace : Opens ['\x7b'] [.openBrace] := opens_of_scan? (by simp) fun _ => rfl
  cases fs with
  | nil =>
    have hclose : Opens ['\x7d'] [.closeBrace] := opens_of_scan? (by simp) fun _ => rfl
    refine ⟨by decide, _, (hbrace.append hclose).lexes, ?_⟩
    intro stack us
    simp [read?, advance?, beginValue?]
  | cons f fs =>
    have hfs : ∀ g ∈ fs, Legible g := fun g hg => h g (List.mem_cons_of_mem f hg)
    obtain ⟨ts, hlexes, hvalue⟩ := (h f List.mem_cons_self).tokens
    obtain ⟨tail, htail, hread⟩ := tailChars_reads hfs
    have hobject := hbrace.append (hlexes.append (endsNumber_tailChars fs) htail)
    constructor
    · rw [objectText_cons]
      simp [(h f List.mem_cons_self).oneLine, oneLine_tailChars hfs]
    · rw [objectText_cons]
      refine ⟨_, hobject.lexes, ?_⟩
      intro stack us
      simp only [List.cons_append, List.nil_append, List.append_assoc, read?, advance?,
        beginValue?]
      rw [hvalue, hread]
      simp [entry]

/-! ## Fields -/

/-- A field as a reader of the object sees it. -/
def named (f : String × String) : String × Json := (f.1, valueOf f.2)

theorem members?_entries (fs : List (String × String)) :
    members? (fs.map entry) = some (fs.map named) := by
  induction fs with
  | nil => rfl
  | cons f fs ih =>
    simp only [members?, List.map_cons, List.mapM_cons] at ih ⊢
    simp [ih, entry, named]

section Lookup

variable {fs : List (String × String)} {β : Type} {read : Json → Option β}

theorem single?_named (hkeys : (fs.map Prod.fst).Nodup) {name text : String}
    (h : (name, text) ∈ fs) : single? (fs.map named) name = some (some (valueOf text)) := by
  induction fs with
  | nil => simp at h
  | cons g gs ih =>
    simp only [List.map_cons, List.nodup_cons] at hkeys
    obtain rfl | h := List.mem_cons.1 h
    · have hothers : (gs.map named).filter (fun f => f.1 = name) = [] := by
        simp only [List.filter_eq_nil_iff, List.mem_map, decide_eq_true_eq]
        rintro _ ⟨f, hf, rfl⟩ rfl
        exact hkeys.1 (List.mem_map.2 ⟨f, hf, rfl⟩)
      simp [single?, named, hothers]
    · have hne : g.1 ≠ name := by
        rintro rfl
        exact hkeys.1 (List.mem_map.2 ⟨_, h, rfl⟩)
      simpa [single?, named, hne] using ih hkeys.2 h

theorem field?_named (hkeys : (fs.map Prod.fst).Nodup) (name : String) {text : String}
    (h : (name, text) ∈ fs) {result : Option β} (hread : ReadAs text read result) (default : β) :
    field? (fs.map named) name default read = result := by
  simp [field?, single?_named hkeys h, hread.read_eq]

theorem required?_named (hkeys : (fs.map Prod.fst).Nodup) (name : String) {text : String}
    (h : (name, text) ∈ fs) {result : Option β} (hread : ReadAs text read result) :
    required? (fs.map named) name read = result := by
  simp [required?, single?_named hkeys h, hread.read_eq]

end Lookup

end MixedInteger.Json
