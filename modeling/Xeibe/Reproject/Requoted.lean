import Xeibe.Reproject.ProjTokens

/-!
# Writing tokens out again

Values are quoted when they hold a space, as PROJ does it.  Reading the written
text gives the same pairs when nothing in them is read in another way: other
white space and semicolons outside of quotes, values that look quoted, spaces
beside `=` and `,`.
-/

namespace Xeibe.Reproject.ProjString

/-! ## Quoted parts -/

/-- Outside of quoted parts there are no gaps, and every quoted part closes, but
the one that the last word of a string may end in. -/
@[grind =]
def settles (last : Bool) : Bool → Text → Bool
  | inString, [] => !inString || last
  | true, '"' :: '"' :: cs => settles last true cs
  | true, b :: cs => settles last (b ≠ '"') cs
  | false, '=' :: '"' :: cs => settles last true cs
  | false, b :: cs => !isGap b && settles last false cs

/-- Neither is a space with the other a `=` or a `,`. -/
def Apart (a b : Char) : Prop :=
  ¬ (a = ' ' ∧ (b = '=' ∨ b = ',')) ∧ ¬ ((a = '=' ∨ a = ',') ∧ b = ' ')

instance (a b : Char) : Decidable (Apart a b) := inferInstanceAs (Decidable (_ ∧ _))

theorem shrinkLoop_inside {ws : Bool} {out c : Text} {b : Char}
    (h : b = '"' → c.head? ≠ some '"') :
    shrinkLoop true ws out (b :: c) = shrinkLoop (b ≠ '"') ws (out ++ [b]) c := by
  rw [shrinkLoop]
  rintro c' rfl rfl
  exact h rfl rfl

theorem shrinkLoop_outside {ws : Bool} {out c : Text} {b : Char}
    (hplus : out = [] ∨ ws = true → b ≠ '+') (hquote : b = '"' → out.getLast? ≠ some '=')
    (hgap : isGap b = false) :
    shrinkLoop false ws out (b :: c) = shrinkLoop false false (out ++ [b]) c := by
  have hb : (if b = '+' ∧ (out = [] ∨ ws = true) then ' ' else b) = b :=
    if_neg fun h => hplus h.2 h.1
  rw [shrinkLoop]
  simp only [hb]
  rw [if_neg fun h => hquote h.1 h.2, if_neg (by simp [hgap])]

/-- A settled text passes the first pass as it is. -/
theorem shrinkLoop_settles {last inString ws : Bool} {out cs : Text}
    (h : settles last inString cs) (hws : inString = true → ws = false)
    (hquote : inString = false → cs.head? = some '"' → out.getLast? ≠ some '=')
    (hplus : inString = false → out = [] ∨ ws = true → cs.head? ≠ some '+') :
    ∃ after, (last = false → after = false) ∧ ∀ rest : Text, rest.head? ≠ some '"' →
      shrinkLoop inString ws out (cs ++ rest) =
        shrinkLoop after (ws && cs.isEmpty) (out ++ cs) rest := by
  fun_induction settles last inString cs generalizing ws out with
  | case1 inString =>
    refine ⟨inString, fun hlast => ?_, fun rest _ => ?_⟩
    · simpa [hlast] using h
    · simp
  | case2 cs ih =>
    obtain ⟨after, hafter, hloop⟩ := @ih ws (out ++ ['"', '"']) h hws nofun nofun
    refine ⟨after, hafter, fun rest hrest => ?_⟩
    have heq := hloop rest hrest
    rw [hws rfl] at heq ⊢
    simpa [shrinkLoop] using heq
  | case3 b cs hne ih =>
    have hhead : b = '"' → cs.head? ≠ some '"' := by
      rintro rfl hcs
      obtain ⟨cs', rfl⟩ := List.head?_eq_some_iff.1 hcs
      exact hne cs' rfl rfl
    obtain ⟨after, hafter, hloop⟩ := @ih ws (out ++ [b]) h (fun _ => hws rfl)
      (fun hb _ => by simp at hb ⊢; simp [hb]) (fun _ hout => by simp [hws rfl] at hout)
    refine ⟨after, hafter, fun rest hrest => ?_⟩
    have heq := hloop rest hrest
    rw [hws rfl] at heq ⊢
    rw [List.cons_append, shrinkLoop_inside]
    · simpa using heq
    · intro hb
      cases cs with
      | nil => exact hrest
      | cons c cs => exact hhead hb
  | case4 cs ih =>
    obtain ⟨after, hafter, hloop⟩ := @ih false (out ++ ['='] ++ ['"']) h (fun _ => rfl) nofun nofun
    refine ⟨after, hafter, fun rest hrest => ?_⟩
    have heq := hloop rest hrest
    rw [List.cons_append, List.cons_append,
      shrinkLoop_outside (fun _ => by decide) (fun hb => absurd hb (by decide)) rfl, shrinkLoop]
    simpa using heq
  | case5 b cs hne ih =>
    rw [Bool.and_eq_true, Bool.not_eq_true'] at h
    obtain ⟨hgap, h⟩ := h
    obtain ⟨after, hafter, hloop⟩ := @ih false (out ++ [b]) h (fun _ => rfl)
      (fun _ hcs hb => by
        obtain ⟨cs', rfl⟩ := List.head?_eq_some_iff.1 hcs
        obtain rfl : b = '=' := by simpa using hb
        exact hne cs' rfl rfl)
      (fun _ hout => by simp at hout)
    refine ⟨after, hafter, fun rest hrest => ?_⟩
    have heq := hloop rest hrest
    rw [List.cons_append, shrinkLoop_outside (fun hout => by simpa using hplus rfl hout)
      (fun hb => hquote rfl (by rw [hb]; rfl)) hgap]
    simpa using heq

theorem words_inside {word s : Text} {b : Char} (h : b = '"' → s.head? ≠ some '"') :
    words true word (b :: s) = words (b ≠ '"') (word ++ [b]) s := by
  rw [words]
  rintro s' rfl rfl
  exact h rfl rfl

theorem words_outside {word s : Text} {b : Char} (hquote : b = '=' → s.head? ≠ some '"')
    (hspace : b ≠ ' ') : words false word (b :: s) = words false (word ++ [b]) s := by
  rw [words]
  · rintro s' rfl rfl
    exact hquote rfl rfl
  · exact hspace

/-- A settled text stays in one word. -/
theorem words_settles {last inString : Bool} {word cs : Text} (h : settles last inString cs) :
    ∃ after, (last = false → after = false) ∧ ∀ rest : Text, rest.head? ≠ some '"' →
      words inString word (cs ++ rest) = words after (word ++ cs) rest := by
  fun_induction settles last inString cs generalizing word with
  | case1 inString =>
    refine ⟨inString, fun hlast => ?_, fun rest _ => ?_⟩
    · simpa [hlast] using h
    · simp
  | case2 cs ih =>
    obtain ⟨after, hafter, hwords⟩ := @ih (word ++ ['"', '"']) h
    refine ⟨after, hafter, fun rest hrest => ?_⟩
    simpa [words] using hwords rest hrest
  | case3 b cs hne ih =>
    obtain ⟨after, hafter, hwords⟩ := @ih (word ++ [b]) h
    refine ⟨after, hafter, fun rest hrest => ?_⟩
    rw [List.cons_append, words_inside, hwords rest hrest, List.append_assoc]
    · rfl
    · rintro rfl
      cases cs with
      | nil => exact hrest
      | cons c cs => exact fun hc => hne cs rfl (by simpa using hc)
  | case4 cs ih =>
    obtain ⟨after, hafter, hwords⟩ := @ih (word ++ ['=', '"']) h
    refine ⟨after, hafter, fun rest hrest => ?_⟩
    simpa [words] using hwords rest hrest
  | case5 b cs hne ih =>
    rw [Bool.and_eq_true, Bool.not_eq_true'] at h
    obtain ⟨after, hafter, hwords⟩ := @ih (word ++ [b]) h.2
    refine ⟨after, hafter, fun rest hrest => ?_⟩
    have hspace : b ≠ ' ' := by
      rintro rfl
      exact absurd h.1 (by decide)
    rw [List.cons_append, words_outside _ hspace, hwords rest hrest, List.append_assoc]
    · rfl
    · rintro rfl
      cases cs with
      | nil => exact hrest
      | cons c cs => exact fun hc => hne cs rfl (by simpa using hc)

/-- The second pass leaves a text alone that has no space beside a `=` or a `,`. -/
theorem takeUp_apart {acc s : Text} (h : (acc ++ s).IsChain Apart) :
    s.foldl takeUp acc = acc ++ s := by
  induction s generalizing acc with
  | nil => simp
  | cons b s ih =>
    have hstep : takeUp acc b = acc ++ [b] := by
      rw [takeUp]
      split
      · rename_i hnil
        rw [hnil]
        rfl
      · have hlast : ∀ a, acc.getLast? = some a → Apart a b := fun a ha =>
          (List.isChain_append.1 h).2.2 a ha b rfl
        split
        · rename_i hb
          rw [if_neg fun hspace => (hlast ' ' hspace).1 ⟨rfl, hb⟩]
        · rw [if_neg]
          rintro ⟨rfl, hacc | hacc⟩
          · exact (hlast '=' hacc).2 ⟨Or.inl rfl, rfl⟩
          · exact (hlast ',' hacc).2 ⟨Or.inr rfl, rfl⟩
    rw [List.foldl_cons, hstep, ih (by rwa [List.append_assoc]), List.append_assoc]
    rfl

/-! ## Words -/

/-- The words, all but the last without an open quote. -/
inductive Settled : List Text → Prop
  | last {b : Text} (h : settles true false b) (hplus : b.head? ≠ some '+') : Settled [b]
  | cons {b : Text} {bs : List Text} (h : settles false false b) (hplus : b.head? ≠ some '+')
      (hne : b ≠ []) (hbs : Settled bs) : Settled (b :: bs)

theorem Settled.ne_nil {bs : List Text} (h : Settled bs) : bs ≠ [] := by
  cases h <;> simp

theorem shrinkLoop_plus {ws : Bool} {out : Text} (hout : out = [] ∨ ws = true) (c : Text) :
    shrinkLoop false ws out ('+' :: c) = shrinkLoop false true out c := by
  have hkeep : ¬ ((!ws) = true ∧ out ≠ []) := by
    rintro ⟨hws, hne⟩
    rcases hout with hout | hout
    · exact hne hout
    · simp [hout] at hws
  rw [shrinkLoop]
  simp only [true_and, if_pos hout]
  rw [if_neg (by simp), if_pos (by decide), if_neg hkeep]

theorem shrinkLoop_space {out : Text} (hout : out ≠ []) (c : Text) :
    shrinkLoop false false out (' ' :: c) = shrinkLoop false true (out ++ [' ']) c := by
  rw [shrinkLoop]
  simp [isGap, isSpace, hout]

/-- The first pass takes the plus signs away. -/
theorem shrinkLoop_words {bs : List Text} (h : Settled bs) {ws : Bool} {out : Text}
    (hout : out = [] ∨ ws = true ∧ out.getLast? = some ' ') :
    shrinkLoop false ws out (List.intercalate [' '] (bs.map fun b => '+' :: b)) =
      out ++ List.intercalate [' '] bs := by
  have hquote : out.getLast? ≠ some '=' := by
    rcases hout with rfl | ⟨-, hlast⟩
    · simp
    · simp [hlast]
  induction h generalizing ws out with
  | @last b h hplus =>
    obtain ⟨after, -, hloop⟩ := @shrinkLoop_settles true false true out b h nofun
      (fun _ _ => hquote) fun _ _ => hplus
    have heq := hloop [] (by simp)
    rw [List.append_nil] at heq
    rw [List.map_singleton, List.intercalate_singleton, List.intercalate_singleton,
      shrinkLoop_plus (hout.imp_right And.left), heq]
    cases after <;> rfl
  | @cons b bs h hplus hne hbs ih =>
    obtain ⟨after, hafter, hloop⟩ := @shrinkLoop_settles false false true out b h nofun
      (fun _ _ => hquote) fun _ _ => hplus
    obtain rfl := hafter rfl
    have hempty : b.isEmpty = false := by simpa using hne
    rw [List.map_cons, List.intercalate_cons_of_ne_nil (by simpa using hbs.ne_nil),
      List.intercalate_cons_of_ne_nil hbs.ne_nil, List.append_assoc, List.cons_append,
      shrinkLoop_plus (hout.imp_right And.left), List.singleton_append, hloop _ (by simp), hempty,
      Bool.and_false, shrinkLoop_space (by simp [hne]), ih (Or.inr ⟨rfl, by simp⟩) (by simp)]
    simp

theorem words_join {bs : List Text} (h : Settled bs) :
    words false [] (List.intercalate [' '] bs) = bs := by
  induction h with
  | @last b h hplus =>
    obtain ⟨after, -, hwords⟩ := @words_settles true false [] b h
    have heq := hwords [] (by simp)
    rw [List.append_nil] at heq
    rw [List.intercalate_singleton, heq]
    cases after <;> rfl
  | @cons b bs h hplus hne hbs ih =>
    obtain ⟨after, hafter, hwords⟩ := @words_settles false false [] b h
    obtain rfl := hafter rfl
    rw [List.intercalate_cons_of_ne_nil hbs.ne_nil, List.append_assoc, List.singleton_append,
      hwords _ (by simp), words, ih]
    rfl

/-! ## Values -/

theorem unescape_quoted (v : Text) :
    unescape ((v.flatMap fun c => if c = '"' then ['"', '"'] else [c]) ++ ['"']) = v := by
  induction v with
  | nil => rfl
  | cons c v ih =>
    by_cases hc : c = '"'
    · subst hc
      simpa [unescape] using ih
    · rw [List.flatMap_cons, if_neg hc, List.append_assoc, List.singleton_append, unescape, ih]
      · rintro _ rfl
        exact absurd rfl hc
      · rintro rfl
        exact absurd rfl hc

theorem splitQuote_key {key : Text} (h : '=' ∉ key) (rest : Text) :
    splitQuote (key ++ '=' :: '"' :: rest) = some (key ++ ['='], rest) := by
  induction key with
  | nil => rfl
  | cons c key ih =>
    rw [List.mem_cons, not_or] at h
    rw [List.cons_append, splitQuote, ih h.2]
    · rfl
    · rintro rest' rfl
      exact absurd rfl h.1

theorem unquote_quoted {key value : Text} (hkey : '=' ∉ key) (hspace : ' ' ∈ value) :
    unquote (key ++ '=' :: doubleQuoteIfNeeded value) = key ++ '=' :: value := by
  have hlast : (key ++ '=' :: doubleQuoteIfNeeded value).getLast? = some '"' := by
    rw [doubleQuoteIfNeeded, if_pos hspace, ← List.cons_append, ← List.append_assoc,
      List.getLast?_concat]
  rw [unquote, hlast]
  rw [doubleQuoteIfNeeded, if_pos hspace, List.cons_append, splitQuote_key hkey]
  dsimp only
  rw [if_neg (by simp), unescape_quoted, List.append_assoc]
  rfl

theorem new_word {kv : KeyValue} (hkey : '=' ∉ kv.key) :
    KeyValue.new (if kv.value = [] then kv.key else kv.key ++ '=' :: kv.value) = kv := by
  have hall : ∀ c ∈ kv.key, decide (c ≠ '=') = true := by
    rintro c hc
    rw [decide_eq_true_iff]
    rintro rfl
    exact hkey hc
  obtain ⟨key, value⟩ := kv
  by_cases hvalue : value = []
  · subst hvalue
    rw [if_pos rfl, KeyValue.new, List.takeWhile_eq_self_iff.2 hall,
      List.dropWhile_eq_nil_iff.2 hall]
    rfl
  · rw [if_neg hvalue, KeyValue.new, List.takeWhile_append_of_pos hall,
      List.dropWhile_append_of_pos hall]
    simp

/-! ## Characters that stay -/

theorem hash_not_mem_chomp (s : Text) : '#' ∉ chomp s := by
  have htake : '#' ∉ s.takeWhile (· ≠ '#') := fun h => by
    simpa using List.mem_takeWhile_imp h
  intro h
  apply htake
  rw [chomp] at h
  split at h
  · cases h
  · rename_i c rest hdrop
    have hsub : ∀ x ∈ c :: rest, x ∈ s.takeWhile (· ≠ '#') := fun x hx =>
      (List.dropWhile_sublist _).subset (hdrop ▸ hx)
    rcases List.mem_cons.1 h with h | h
    · exact hsub _ (h ▸ List.mem_cons_self)
    · exact hsub _ (List.mem_cons_of_mem _ ((List.rdropWhile_prefix _ _).subset h))

theorem mem_shrinkLoop {inString ws : Bool} {out cs : Text} {x : Char} (hx : x ≠ ' ')
    (h : x ∈ shrinkLoop inString ws out cs) : x ∈ out ∨ x ∈ cs := by
  fun_induction shrinkLoop inString ws out cs with
  | case1 => exact Or.inl h
  | case2 ws out c ih => grind
  | case3 ws out b c hne ih => grind
  | case4 ws out b c b' hif ih => grind
  | case5 ws out b c b' hif hgap ih => grind
  | case6 ws out b c b' hif hgap ih => grind

theorem mem_takeUp {acc : Text} {b x : Char} (h : x ∈ takeUp acc b) : x ∈ acc ∨ x = b := by
  unfold takeUp at h
  split at h
  · exact Or.inr (List.mem_singleton.1 h)
  · split at h
    · split at h
      · rcases List.mem_append.1 h with h | h
        · exact Or.inl (List.dropLast_subset _ h)
        · exact Or.inr (List.mem_singleton.1 h)
      · simpa using h
    · split at h
      · exact Or.inl h
      · simpa using h

theorem mem_foldl_takeUp {acc s : Text} {x : Char} (h : x ∈ s.foldl takeUp acc) :
    x ∈ acc ∨ x ∈ s := by
  induction s generalizing acc with
  | nil => exact Or.inl h
  | cons b s ih =>
    rcases ih h with h | h
    · exact (mem_takeUp h).imp_right fun (h : x = b) => h ▸ List.mem_cons_self
    · exact Or.inr (List.mem_cons_of_mem _ h)

theorem mem_words {inString : Bool} {word s w : Text} {x : Char} (hw : w ∈ words inString word s)
    (h : x ∈ w) : x ∈ word ∨ x ∈ s := by
  fun_induction words inString word s with
  | case1 => grind
  | case2 => grind
  | case3 => grind
  | case4 => grind
  | case5 => grind
  | case6 => grind

theorem mem_unescape {s : Text} {x : Char} (h : x ∈ unescape s) : x ∈ s := by
  fun_induction unescape s with
  | case1 rest ih => grind
  | case2 rest hne => cases h
  | case3 c rest hne hne' ih => grind
  | case4 => cases h

theorem mem_splitQuote {word before rest : Text} {x : Char}
    (hsplit : splitQuote word = some (before, rest)) (h : x ∈ before ∨ x ∈ rest) : x ∈ word := by
  fun_induction splitQuote word generalizing before with
  | case1 rest' => grind
  | case2 c rest' hne ih =>
    obtain ⟨p, hp, heq⟩ := Option.map_eq_some_iff.1 hsplit
    obtain ⟨rfl, rfl⟩ := Prod.mk.inj heq
    rcases h with h | h
    · exact (List.mem_cons.1 h).elim (fun h => h ▸ List.mem_cons_self)
        fun h => List.mem_cons_of_mem _ (ih hp (Or.inl h))
    · exact List.mem_cons_of_mem _ (ih hp (Or.inr h))
  | case3 => cases hsplit

theorem mem_unquote {word : Text} {x : Char} (h : x ∈ unquote word) : x ∈ word := by
  rw [unquote] at h
  split at h
  · exact h
  · rename_i before rest hsplit
    split at h
    · exact h
    · exact mem_splitQuote hsplit ((List.mem_append.1 h).imp_right mem_unescape)

theorem mem_new {word : Text} {x : Char}
    (h : x ∈ (KeyValue.new word).key ∨ x ∈ (KeyValue.new word).value) : x ∈ word := by
  rcases h with h | h
  · exact (List.takeWhile_sublist _).subset h
  · exact (List.dropWhile_sublist _).subset (List.mem_of_mem_drop h)

theorem mem_pairs {text : Text} {kv : KeyValue} (hkv : kv ∈ pairs text) {x : Char} (hx : x ≠ ' ')
    (h : x ∈ kv.key ∨ x ∈ kv.value) : x ∈ chomp text := by
  obtain ⟨word, hword, rfl⟩ := List.mem_map.1 hkv
  rw [arguments] at hword
  split at hword
  · cases hword
  · obtain ⟨w, hw, rfl⟩ := List.mem_map.1 hword
    have hshrink : x ∈ shrink text :=
      (mem_words hw (mem_unquote (mem_new h))).resolve_left (by simp)
    exact (mem_shrinkLoop hx ((mem_foldl_takeUp hshrink).resolve_left (by simp))).resolve_left
      (by simp)

theorem eq_not_mem_key {text : Text} {kv : KeyValue} (hkv : kv ∈ pairs text) : '=' ∉ kv.key := by
  obtain ⟨word, -, rfl⟩ := List.mem_map.1 hkv
  intro h
  simpa using List.mem_takeWhile_imp h

/-! ## Writing and reading again -/

/-- Nothing in the pairs is read in another way than it was meant. -/
structure Legible (kvs : List KeyValue) : Prop where
  /-- Quoted parts close and gaps stand in them only, no word starts with a plus sign, and none but
  the last is empty. -/
  settled : kvs ≠ [] → Settled (kvs.map KeyValue.body)
  /-- No space is beside a `=` or a `,`. -/
  apart : (List.intercalate [' '] (kvs.map KeyValue.body)).IsChain Apart
  /-- A value that isn't quoted doesn't look it. -/
  plain : ∀ kv ∈ kvs, ' ' ∈ kv.value ∨ unquote kv.body = kv.body
  /-- Nothing at the end is taken for a gap. -/
  ends : ∀ kv ∈ kvs.getLast?, ∀ c ∈ kv.body.getLast?, isGap c = false
  single : kvs ≠ [⟨[], []⟩]

theorem unquote_body {kv : KeyValue} (hkey : '=' ∉ kv.key)
    (hplain : ' ' ∈ kv.value ∨ unquote kv.body = kv.body) :
    KeyValue.new (unquote kv.body) = kv := by
  have hword : unquote kv.body =
      if kv.value = [] then kv.key else kv.key ++ '=' :: kv.value := by
    by_cases hspace : ' ' ∈ kv.value
    · have hne : kv.value ≠ [] := List.ne_nil_of_mem hspace
      rw [KeyValue.body, if_neg hne, if_neg hne, unquote_quoted hkey hspace]
    · rw [hplain.resolve_left hspace, KeyValue.body, doubleQuoteIfNeeded, if_neg hspace]
  rw [hword, new_word hkey]

theorem mem_body {kv : KeyValue} {x : Char} (h : x ∈ kv.body) :
    x ∈ kv.key ∨ x ∈ kv.value ∨ x = '=' ∨ x = '"' := by
  rw [KeyValue.body, doubleQuoteIfNeeded] at h
  grind

theorem eq_nil_of_body {kv : KeyValue} (h : kv.body = []) : kv = ⟨[], []⟩ := by
  obtain ⟨key, value⟩ := kv
  rw [KeyValue.body] at h
  split at h
  · rename_i hvalue
    rw [show value = [] from hvalue, show key = [] from h]
  · simp at h

theorem requoted_cons (kv : KeyValue) {kvs : List KeyValue} (hne : kvs ≠ []) :
    requoted (kv :: kvs) = '+' :: (kv.body ++ ' ' :: requoted kvs) := by
  rw [requoted, List.map_cons, List.intercalate_cons_of_ne_nil (by simpa using hne),
    List.append_assoc]
  rfl

theorem mem_requoted {kvs : List KeyValue} {x : Char} (h : x ∈ requoted kvs) :
    x = ' ' ∨ x = '+' ∨ ∃ kv ∈ kvs, x ∈ kv.body := by
  induction kvs with
  | nil => cases h
  | cons kv kvs ih =>
    by_cases hne : kvs = []
    · subst hne
      rw [requoted, List.map_singleton, List.intercalate_singleton] at h
      exact Or.inr ((List.mem_cons.1 h).imp_right fun h => ⟨kv, List.mem_cons_self, h⟩)
    · rw [requoted_cons kv hne] at h
      simp only [List.mem_cons, List.mem_append] at h
      rcases h with h | h | h | h
      · exact Or.inr (Or.inl h)
      · exact Or.inr (Or.inr ⟨kv, List.mem_cons_self, h⟩)
      · exact Or.inl h
      · refine (ih h).imp_right (Or.imp_right ?_)
        rintro ⟨kv', hkv', hx⟩
        exact ⟨kv', List.mem_cons_of_mem _ hkv', hx⟩

theorem exists_requoted {kvs : List KeyValue} (hne : kvs ≠ []) :
    ∃ rest, requoted kvs = '+' :: rest := by
  obtain ⟨kv, kvs, rfl⟩ := List.exists_cons_of_ne_nil hne
  by_cases hkvs : kvs = []
  · subst hkvs
    exact ⟨kv.body, by rw [requoted, List.map_singleton, List.intercalate_singleton]⟩
  · exact ⟨_, requoted_cons kv hkvs⟩

theorem getLast?_requoted {kvs : List KeyValue} {kv : KeyValue} (h : kvs.getLast? = some kv) :
    (requoted kvs).getLast? = ('+' :: kv.body).getLast? := by
  induction kvs with
  | nil => cases h
  | cons kv' kvs ih =>
    by_cases hne : kvs = []
    · subst hne
      cases h
      rw [requoted, List.map_singleton, List.intercalate_singleton]
      rfl
    · have hlast : kvs.getLast? = some kv := by
        rw [← h, List.getLast?_cons_of_ne_nil hne]
      obtain ⟨rest, hrest⟩ := exists_requoted hne
      rw [requoted_cons kv' hne, ← ih hlast, hrest, ← List.cons_append, List.append_cons,
        List.getLast?_append_cons]

theorem chomp_requoted {kvs : List KeyValue} (hne : kvs ≠ [])
    (hhash : ∀ kv ∈ kvs, '#' ∉ kv.key ∧ '#' ∉ kv.value)
    (hends : ∀ kv ∈ kvs.getLast?, ∀ c ∈ kv.body.getLast?, isGap c = false) :
    chomp (requoted kvs) = requoted kvs := by
  have hcomment : '#' ∉ requoted kvs := by
    intro h
    rcases mem_requoted h with h | h | ⟨kv, hkv, h⟩
    · exact absurd h (by decide)
    · exact absurd h (by decide)
    · rcases mem_body h with h | h | h | h
      · exact (hhash kv hkv).1 h
      · exact (hhash kv hkv).2 h
      · exact absurd h (by decide)
      · exact absurd h (by decide)
  have htake : (requoted kvs).takeWhile (· ≠ '#') = requoted kvs := by
    refine List.takeWhile_eq_self_iff.2 fun c hc => ?_
    rw [decide_eq_true_iff]
    rintro rfl
    exact hcomment hc
  obtain ⟨rest, hrest⟩ := exists_requoted hne
  rw [chomp, htake, hrest]
  show '+' :: rest.rdropWhile isGap = _
  rw [List.rdropWhile_eq_self_iff.2]
  intro hne' hgap
  obtain ⟨kv, hkv⟩ := Option.ne_none_iff_exists'.1 (mt List.getLast?_eq_none_iff.1 hne)
  have hlast := getLast?_requoted hkv
  rw [hrest, List.getLast?_cons_of_ne_nil hne', List.getLast?_eq_some_getLast hne'] at hlast
  by_cases hbody : kv.body = []
  · rw [hbody] at hlast
    rw [Option.some.inj hlast] at hgap
    exact absurd hgap (by decide)
  · rw [List.getLast?_cons_of_ne_nil hbody] at hlast
    rw [hends kv hkv _ hlast.symm] at hgap
    cases hgap

/-- The pairs of a string, written out with the values that hold a space in quotes, are read as
the same pairs when they are legible. -/
theorem pairs_requoted (text : Text) (h : Legible (pairs text)) :
    pairs (requoted (pairs text)) = pairs text := by
  by_cases hne : pairs text = []
  · rw [hne]
    decide
  have hsettled := h.settled hne
  have hmap : (pairs text).map (fun kv => '+' :: kv.body) =
      ((pairs text).map KeyValue.body).map fun b => '+' :: b := by
    rw [List.map_map]
    rfl
  have hshrink : shrink (requoted (pairs text)) =
      List.intercalate [' '] ((pairs text).map KeyValue.body) := by
    rw [shrink, chomp_requoted hne (fun kv hkv => ⟨fun hx => ?_, fun hx => ?_⟩) h.ends, requoted,
      hmap, shrinkLoop_words hsettled (Or.inl rfl), List.nil_append, takeUp_apart h.apart]
    · rfl
    · exact hash_not_mem_chomp text (mem_pairs hkv (by decide) (Or.inl hx))
    · exact hash_not_mem_chomp text (mem_pairs hkv (by decide) (Or.inr hx))
  have hfull : List.intercalate [' '] ((pairs text).map KeyValue.body) ≠ [] := by
    obtain ⟨kv, kvs, hkvs⟩ := List.exists_cons_of_ne_nil hne
    by_cases hone : kvs = []
    · subst hone
      rw [hkvs, List.map_singleton, List.intercalate_singleton]
      intro hbody
      exact h.single (by rw [hkvs, eq_nil_of_body hbody])
    · rw [hkvs, List.map_cons, List.intercalate_cons_of_ne_nil (by simpa using hone)]
      simp
  have hpairs : pairs (requoted (pairs text)) =
      ((pairs text).map KeyValue.body).map (KeyValue.new ∘ unquote) := by
    rw [pairs, arguments, hshrink, if_neg hfull, words_join hsettled, List.map_map]
  rw [hpairs, List.map_map]
  refine (List.map_congr_left fun kv hkv => ?_).trans (List.map_id _)
  exact unquote_body (eq_not_mem_key hkv) (h.plain kv hkv)

theorem pairs_requoted_title :
    pairs (requoted (pairs "+title=\"a \"\"b\"\" c;\" +proj=longlat".toList)) =
      pairs "+title=\"a \"\"b\"\" c;\" +proj=longlat".toList := by
  have hpairs : pairs "+title=\"a \"\"b\"\" c;\" +proj=longlat".toList =
      [⟨"title".toList, "a \"b\" c;".toList⟩, ⟨"proj".toList, "longlat".toList⟩] := by
    decide
  refine pairs_requoted _ ?_
  rw [hpairs]
  exact ⟨fun _ => .cons (by decide) (by decide) (by decide) (.last (by decide) (by decide)),
    by decide, by decide, fun kv hkv c hc => by cases hkv; cases hc; decide, by decide⟩

/-- A value with a semicolon and no space isn't quoted again, and is cut there. -/
theorem pairs_requoted_semicolon : ¬ ∀ text, pairs (requoted (pairs text)) = pairs text := by
  intro h
  have hcut := h "+title=\"a;b\"".toList
  revert hcut
  decide

end Xeibe.Reproject.ProjString
