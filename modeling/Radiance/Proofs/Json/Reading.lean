import Radiance.Proofs.Json.Lexing

/-!
# Values are read back from their text

The reader goes through the tokens of a value and ends with that value, except that arrays and
objects inside too many others become unreadable.

## Main definitions

* `Json.Fits`: the values that have a text of their own.
* `Json.depth`: how many arrays and objects lie inside one another.
* `Json.clip`: a value in which everything below a level is unreadable.

## Main statements

* `Json.Reader.reads`: the machine on the tokens of a value.
* `Json.parse?_text`: what is read from the text of a value.
* `Json.isReadable_clip_iff`: the levels that leave a value whole.
-/

namespace Radiance.Json

/-- Induction over the elements of arrays and the values of fields. -/
@[elab_as_elim]
theorem induct {motive : Json → Prop} (null : motive null) (bool : ∀ b, motive (bool b))
    (num : ∀ n, motive (num n)) (str : ∀ s, motive (str s))
    (arr : ∀ items, (∀ v ∈ items, motive v) → motive (arr items))
    (obj : ∀ fields, (∀ field ∈ fields, motive field.2) → motive (obj fields))
    (unreadable : motive unreadable) (v : Json) : motive v :=
  @Json.rec motive (fun items => ∀ v ∈ items, motive v)
    (fun fields => ∀ field ∈ fields, motive field.2) (fun field => motive field.2)
    null bool num str arr obj unreadable nofun
    (fun _ _ hv hrest => List.forall_mem_cons.2 ⟨hv, hrest⟩) nofun
    (fun _ _ hfield hrest => List.forall_mem_cons.2 ⟨hfield, hrest⟩) (fun _ _ hv => hv) v

/-! ## Values and their levels -/

mutual

/-- Whether a value has a text of its own from which it can be read back. -/
def Fits : Json → Prop
  | num n => n.Fits
  | arr items => ItemsFit items
  | obj fields => FieldsFit fields
  | unreadable => False
  | _ => True

/-- Whether all elements have texts of their own. -/
def ItemsFit : List Json → Prop
  | [] => True
  | v :: rest => v.Fits ∧ ItemsFit rest

/-- Whether the values of all fields have texts of their own. -/
def FieldsFit : List (String × Json) → Prop
  | [] => True
  | (_, v) :: rest => v.Fits ∧ FieldsFit rest

end

theorem itemsFit_iff {items : List Json} : ItemsFit items ↔ ∀ v ∈ items, v.Fits := by
  induction items with
  | nil => simp [ItemsFit]
  | cons v items ih => simp [ItemsFit, ih]

theorem fieldsFit_iff {fields : List (String × Json)} :
    FieldsFit fields ↔ ∀ field ∈ fields, field.2.Fits := by
  induction fields with
  | nil => simp [FieldsFit]
  | cons field fields ih => simp [FieldsFit, ih]

mutual

/-- How many arrays and objects lie inside one another. -/
def depth : Json → Nat
  | arr items => itemsDepth items + 1
  | obj fields => fieldsDepth fields + 1
  | _ => 0

/-- The depth of the deepest element. -/
def itemsDepth : List Json → Nat
  | [] => 0
  | v :: rest => max v.depth (itemsDepth rest)

/-- The depth of the deepest field. -/
def fieldsDepth : List (String × Json) → Nat
  | [] => 0
  | (_, v) :: rest => max v.depth (fieldsDepth rest)

end

theorem itemsDepth_le_iff {items : List Json} {n : Nat} :
    itemsDepth items ≤ n ↔ ∀ v ∈ items, v.depth ≤ n := by
  induction items with
  | nil => simp [itemsDepth]
  | cons v items ih => rw [itemsDepth, Nat.max_le, ih, List.forall_mem_cons]

theorem fieldsDepth_le_iff {fields : List (String × Json)} {n : Nat} :
    fieldsDepth fields ≤ n ↔ ∀ field ∈ fields, field.2.depth ≤ n := by
  induction fields with
  | nil => simp [fieldsDepth]
  | cons field fields ih => rw [fieldsDepth, Nat.max_le, ih, List.forall_mem_cons]

mutual

/-- A value in which arrays and objects below a level are unreadable. -/
def clip (n : Nat) : Json → Json
  | arr items => if n = 0 then unreadable else arr (clipItems (n - 1) items)
  | obj fields => if n = 0 then unreadable else obj (clipFields (n - 1) fields)
  | v => v

/-- The elements, each clipped at a level. -/
def clipItems (n : Nat) : List Json → List Json
  | [] => []
  | v :: rest => v.clip n :: clipItems n rest

/-- The fields, the value of each clipped at a level. -/
def clipFields (n : Nat) : List (String × Json) → List (String × Json)
  | [] => []
  | (name, v) :: rest => (name, v.clip n) :: clipFields n rest

end

theorem clipItems_eq (n : Nat) (items : List Json) : clipItems n items = items.map (clip n) := by
  induction items with
  | nil => rfl
  | cons v items ih => rw [clipItems, ih, List.map_cons]

theorem clipFields_eq (n : Nat) (fields : List (String × Json)) :
    clipFields n fields = fields.map fun field => (field.1, field.2.clip n) := by
  induction fields with
  | nil => rfl
  | cons field fields ih => rw [clipFields, ih, List.map_cons]

/-- A level that is deep enough leaves a value as it is. -/
theorem clip_eq_self {v : Json} {n : Nat} (h : v.depth ≤ n) : v.clip n = v := by
  induction v using induct generalizing n with
  | null | bool | num | str | unreadable => rfl
  | arr items ih =>
    rw [depth] at h
    have hitems : ∀ v ∈ items, v.clip (n - 1) = v := fun v hv =>
      ih v hv (itemsDepth_le_iff.1 (by omega) v hv)
    rw [clip, if_neg (by omega), clipItems_eq, List.map_congr_left hitems, List.map_id']
  | obj fields ih =>
    rw [depth] at h
    have hfields : ∀ field ∈ fields, (field.1, field.2.clip (n - 1)) = field := fun field hfield =>
      Prod.ext rfl (ih field hfield (fieldsDepth_le_iff.1 (by omega) field hfield))
    rw [clip, if_neg (by omega), clipFields_eq, List.map_congr_left hfields, List.map_id']

/-- Nothing of an array or object is left on the level zero. -/
theorem clip_zero {v : Json} (h : v.depth ≠ 0) : v.clip 0 = unreadable := by
  cases v with
  | arr items => rfl
  | obj fields => rfl
  | _ => exact absurd rfl h

theorem areReadable_eq (items : List Json) : areReadable items = items.all isReadable := by
  induction items with
  | nil => rfl
  | cons v items ih => rw [areReadable, ih, List.all_cons]

theorem fieldsReadable_eq (fields : List (String × Json)) :
    fieldsReadable fields = fields.all fun field => field.2.isReadable := by
  induction fields with
  | nil => rfl
  | cons field fields ih => rw [fieldsReadable, ih, List.all_cons]

/-- A level leaves a value readable exactly if it is deep enough. -/
theorem isReadable_clip_iff {v : Json} (hv : v.Fits) {n : Nat} :
    (v.clip n).isReadable = true ↔ v.depth ≤ n := by
  induction v using induct generalizing n with
  | null | bool | num | str => simp [clip, isReadable, depth]
  | unreadable => exact hv.elim
  | arr items ih =>
    rw [Fits, itemsFit_iff] at hv
    rw [clip, depth]
    split
    next hn => simp [hn, isReadable]
    next hn =>
      have hn' : itemsDepth items + 1 ≤ n ↔ itemsDepth items ≤ n - 1 := by omega
      rw [isReadable, areReadable_eq, clipItems_eq, List.all_map, List.all_eq_true, hn',
        itemsDepth_le_iff]
      exact forall₂_congr fun v hmem => ih v hmem (hv v hmem)
  | obj fields ih =>
    rw [Fits, fieldsFit_iff] at hv
    rw [clip, depth]
    split
    next hn => simp [hn, isReadable]
    next hn =>
      have hn' : fieldsDepth fields + 1 ≤ n ↔ fieldsDepth fields ≤ n - 1 := by omega
      rw [isReadable, fieldsReadable_eq, clipFields_eq, List.all_map, List.all_eq_true, hn',
        fieldsDepth_le_iff]
      exact forall₂_congr fun field hmem => ih field hmem (hv field hmem)

/-- A value that fits is readable. -/
theorem Fits.isReadable {v : Json} (h : v.Fits) : v.isReadable = true := by
  have hclip := (isReadable_clip_iff h).2 (Nat.le_refl v.depth)
  rwa [clip_eq_self (Nat.le_refl _)] at hclip

theorem eq_null_of_clip {v : Json} {n : Nat} (h : v.clip n = null) : v = null := by
  cases v with
  | null => rfl
  | arr items =>
    rw [clip] at h
    split at h <;> cases h
  | obj fields =>
    rw [clip] at h
    split at h <;> cases h
  | bool | num | str | unreadable => cases h

/-! ## Text to tokens -/

/-- Whether tokens are cut off a text that starts with theirs. -/
def Lexes (ts : List Token) (rest : List Char) : Prop :=
  lex (ts.flatMap Token.chars ++ rest) = (lex rest).map (ts ++ ·)

theorem lexes_nil (rest : List Char) : Lexes [] rest := by
  simp [Lexes]

theorem Lexes.cons {t : Token} {ts : List Token} {rest : List Char} (h : Lexes ts rest)
    (ht : t.Fits) (hstop : ∀ n, t = .num n → EndsNumber (ts.flatMap Token.chars ++ rest)) :
    Lexes (t :: ts) rest := by
  rw [Lexes, List.flatMap_cons, List.append_assoc, lex_chars_append ht hstop, h, Option.map_map]
  rfl

theorem Lexes.append {ts us : List Token} {rest : List Char}
    (hts : Lexes ts (us.flatMap Token.chars ++ rest)) (hus : Lexes us rest) :
    Lexes (ts ++ us) rest := by
  rw [Lexes, List.flatMap_append, List.append_assoc, hts, hus, Option.map_map]
  simp [Function.comp_def]

/-- A token that is no number can be followed by anything. -/
theorem Lexes.cons_mark {t : Token} {ts : List Token} {rest : List Char} (h : Lexes ts rest)
    (ht : t.Fits) (hmark : ∀ n, t ≠ .num n) : Lexes (t :: ts) rest :=
  h.cons ht fun n hn => absurd hn (hmark n)

theorem endsNumber_cons {c : Char} (h : isNumberChar c = false) (rest : List Char) :
    EndsNumber (c :: rest) := by
  simpa [EndsNumber] using h

theorem lexes_elementTokens {items : List Json} {rest : List Char}
    (h : ∀ v ∈ items, ∀ rest, EndsNumber rest → Lexes v.tokens rest) (hrest : EndsNumber rest) :
    Lexes (elementTokens items) rest := by
  induction items with
  | nil => exact lexes_nil rest
  | cons v items ih =>
    have hv := h v List.mem_cons_self
    have hitems := ih fun w hw => h w (List.mem_cons_of_mem v hw)
    cases items with
    | nil => exact hv rest hrest
    | cons w items =>
      exact (hv _ (endsNumber_cons rfl _)).append (hitems.cons_mark (t := .comma) trivial nofun)

theorem lexes_fieldTokens {fields : List (String × Json)} {rest : List Char}
    (h : ∀ field ∈ fields, ∀ rest, EndsNumber rest → Lexes field.2.tokens rest)
    (hrest : EndsNumber rest) : Lexes (fieldTokens fields) rest := by
  induction fields with
  | nil => exact lexes_nil rest
  | cons field fields ih =>
    have hv := h field List.mem_cons_self
    have hfields := ih fun g hg => h g (List.mem_cons_of_mem field hg)
    cases fields with
    | nil =>
      exact ((hv rest hrest).cons_mark (t := .colon) trivial nofun).cons_mark trivial nofun
    | cons g fields =>
      have hvalue := (hv _ (endsNumber_cons rfl _)).append
        (hfields.cons_mark (t := .comma) trivial nofun)
      exact (hvalue.cons_mark (t := .colon) trivial nofun).cons_mark trivial nofun

/-- A value is cut off a text that starts with it. -/
theorem lexes_tokens {v : Json} (hv : v.Fits) {rest : List Char} (hrest : EndsNumber rest) :
    Lexes v.tokens rest := by
  induction v using induct generalizing rest with
  | null | bool | str => exact (lexes_nil rest).cons_mark trivial nofun
  | num n => exact (lexes_nil rest).cons hv fun _ _ => hrest
  | unreadable => exact hv.elim
  | arr items ih =>
    rw [Fits, itemsFit_iff] at hv
    have hclose := (lexes_nil rest).cons_mark (t := .rightBracket) trivial nofun
    have hitems := lexes_elementTokens (fun v hmem _ => ih v hmem (hv v hmem))
      (endsNumber_cons (c := ']') rfl rest)
    exact (hitems.append hclose).cons_mark trivial nofun
  | obj fields ih =>
    rw [Fits, fieldsFit_iff] at hv
    have hclose := (lexes_nil rest).cons_mark (t := .rightBrace) trivial nofun
    have hfields := lexes_fieldTokens (fun field hmem _ => ih field hmem (hv field hmem))
      (endsNumber_cons (c := '}') rfl rest)
    exact (hfields.append hclose).cons_mark trivial nofun

/-- The tokens of a value are read back from its text. -/
theorem lex_text {v : Json} (hv : v.Fits) : lex v.text.toList = some v.tokens := by
  have h : Lexes v.tokens [] := lexes_tokens hv nofun
  rw [Lexes, List.append_nil, lex] at h
  simpa [text] using h

/-! ## Tokens to values -/

namespace Reader

theorem leave_eq (frames : List Frame) (v : Json) :
    leave frames v =
      some ⟨frames, .complete (if maxDepth - frames.length = 0 then .unreadable else v)⟩ := by
  have hinside : frames[maxDepth - 1]?.isSome = true ↔ maxDepth - frames.length = 0 := by
    simp only [Option.isSome_iff_ne_none, ne_eq, List.getElem?_eq_none_iff, maxDepth]
    omega
  simp only [leave, hinside]

/-- Whether the machine goes through the tokens of a value and ends with it, wherever it is. -/
def Reads (v : Json) : Prop :=
  ∀ frames : List Frame, v.tokens.foldlM step ⟨frames, .value⟩ =
    some ⟨frames, .complete (v.clip (maxDepth - frames.length))⟩

/-- What starts a value does not end an array. -/
theorem exists_tokens_eq_cons (v : Json) : ∃ t ts, v.tokens = t :: ts ∧ t ≠ .rightBracket := by
  cases v <;> exact ⟨_, _, rfl, nofun⟩

theorem step_firstElement {t : Token} (ht : t ≠ .rightBracket) (frames : List Frame) :
    step ⟨frames, .firstElement⟩ t = step ⟨frames, .value⟩ t := by
  cases t with
  | rightBracket => exact absurd rfl ht
  | _ => rfl

theorem read_elements {items : List Json} (hne : items ≠ []) (h : ∀ v ∈ items, Reads v)
    (done : List Json) (frames : List Frame) :
    (elementTokens items ++ [Token.rightBracket]).foldlM step ⟨.array done :: frames, .value⟩ =
      leave frames
        (array ((items.map (clip (maxDepth - (frames.length + 1)))).reverse ++ done)) := by
  induction items generalizing done with
  | nil => exact absurd rfl hne
  | cons v items ih =>
    have hv := h v List.mem_cons_self (.array done :: frames)
    cases items with
    | nil =>
      rw [elementTokens, List.foldlM_append, hv]
      rfl
    | cons w items =>
      have hrest := ih (List.cons_ne_nil w items) fun w hw => h w (List.mem_cons_of_mem v hw)
      rw [elementTokens, List.append_assoc, List.foldlM_append, hv]
      · refine (hrest _).trans ?_
        simp
      · exact nofun

theorem read_fields {fields : List (String × Json)} (hne : fields ≠ [])
    (h : ∀ field ∈ fields, Reads field.2) (done : Fields) (first : Bool) (frames : List Frame) :
    (fieldTokens fields ++ [Token.rightBrace]).foldlM step ⟨frames, .name done first⟩ =
      leave frames (object ((fields.map fun field =>
        (some field.1, field.2.clip (maxDepth - (frames.length + 1)))).reverse ++ done)) := by
  induction fields generalizing done first with
  | nil => exact absurd rfl hne
  | cons field fields ih =>
    have hv := h field List.mem_cons_self (.object done (some field.1) :: frames)
    cases fields with
    | nil =>
      change (field.2.tokens ++ [Token.rightBrace]).foldlM step
        ⟨.object done (some field.1) :: frames, .value⟩ = _
      rw [List.foldlM_append, hv]
      rfl
    | cons g fields =>
      have hrest := ih (List.cons_ne_nil g fields) fun g hg => h g (List.mem_cons_of_mem field hg)
      change (field.2.tokens ++ .comma :: fieldTokens (g :: fields) ++ [Token.rightBrace]).foldlM
        step ⟨.object done (some field.1) :: frames, .value⟩ = _
      rw [List.append_assoc, List.foldlM_append, hv]
      refine (hrest _ false).trans ?_
      simp

theorem object_reverse (f : Json → Json) (fields : List (String × Json)) :
    object (fields.map fun field => (some field.1, f field.2)).reverse =
      .obj (fields.map fun field => (field.1, f field.2)) := by
  have hnames : (fields.map fun field => (some field.1, f field.2)).mapM
      (fun field => field.1.map (·, field.2)) =
        some (fields.map fun field => (field.1, f field.2)) := by
    induction fields with
    | nil => rfl
    | cons field fields ih => simp [ih]
  rw [object, List.reverse_reverse]
  erw [hnames]

/-- The first element of an array is read like any other value. -/
theorem foldlM_firstElement (v : Json) (items : List Json) (frames : List Frame) :
    (elementTokens (v :: items) ++ [Token.rightBracket]).foldlM step ⟨frames, .firstElement⟩ =
      (elementTokens (v :: items) ++ [Token.rightBracket]).foldlM step ⟨frames, .value⟩ := by
  obtain ⟨t, ts, hts, ht⟩ := exists_tokens_eq_cons v
  have hcons : ∃ us, elementTokens (v :: items) = t :: us := by
    cases items with
    | nil => exact ⟨ts, hts⟩
    | cons w items =>
      exact ⟨ts ++ .comma :: elementTokens (w :: items), by simp [elementTokens, hts]⟩
  obtain ⟨us, hus⟩ := hcons
  rw [hus, List.cons_append, List.foldlM_cons, List.foldlM_cons, step_firstElement ht]

/-- The machine goes through the tokens of a value and ends with it. -/
theorem reads {v : Json} (hv : v.Fits) : Reads v := by
  induction v using induct with
  | null | bool | num | str => exact fun _ => rfl
  | unreadable => exact hv.elim
  | arr items ih =>
    rw [Fits, itemsFit_iff] at hv
    have hreads : ∀ v ∈ items, Reads v := fun v hmem => ih v hmem (hv v hmem)
    intro frames
    rw [clip, clipItems_eq]
    change (elementTokens items ++ [Token.rightBracket]).foldlM step
      ⟨.array [] :: frames, .firstElement⟩ = _
    cases items with
    | nil => exact leave_eq frames _
    | cons v items =>
      rw [foldlM_firstElement, read_elements (List.cons_ne_nil v items) hreads, List.append_nil,
        leave_eq, array, List.reverse_reverse, Nat.sub_add_eq]
  | obj fields ih =>
    rw [Fits, fieldsFit_iff] at hv
    have hreads : ∀ field ∈ fields, Reads field.2 := fun field hmem => ih field hmem (hv field hmem)
    intro frames
    rw [clip, clipFields_eq]
    change (fieldTokens fields ++ [Token.rightBrace]).foldlM step ⟨frames, .name [] true⟩ = _
    cases fields with
    | nil => exact leave_eq frames _
    | cons field fields =>
      rw [read_fields (List.cons_ne_nil field fields) hreads, List.append_nil, leave_eq,
        object_reverse, Nat.sub_add_eq]

end Reader

/-- A value is read back from its text down to the deepest level that is allowed. -/
theorem parse?_text {v : Json} (hv : v.Fits) : parse? v.text = some (v.clip maxDepth) := by
  have hread := Reader.reads hv []
  rw [parse?, lex_text hv]
  change ofTokens? v.tokens = _
  rw [ofTokens?, Reader.start, hread]
  rfl

end Radiance.Json
