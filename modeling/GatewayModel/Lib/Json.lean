import Mathlib.Data.List.TakeWhile
import Mathlib.Data.Nat.Digits.Defs

-- The objects of JSON whose values are strings without escapes and integers.
namespace Json

inductive Value
  | str (s : List Char)
  | num (n : Int)
  deriving Repr, DecidableEq

abbrev Field := List Char × Value

def isPlain (c : Char) : Bool :=
  c ≠ '"' && c ≠ '\\' && 32 ≤ c.toNat

def isSpace (c : Char) : Bool :=
  c = ' ' || c = '\t' || c = '\n' || c = '\r'

section Decode

def skip (cs : List Char) : List Char :=
  cs.dropWhile isSpace

def string : List Char → Option (List Char × List Char)
  | '"' :: cs =>
    match cs.dropWhile isPlain with
    | '"' :: rest => some (cs.takeWhile isPlain, rest)
    | _           => none
  | _ => none

def natural (cs : List Char) : Option (Nat × List Char) :=
  match cs.takeWhile (·.isDigit) with
  | []           => none
  | '0' :: _ :: _ => none
  | ds           => some (Nat.ofDigitChars 10 ds 0, cs.dropWhile (·.isDigit))

def number : List Char → Option (Int × List Char)
  | '-' :: cs => (natural cs).map fun x => (-x.1, x.2)
  | cs        => (natural cs).map fun x => (x.1, x.2)

def value : List Char → Option (Value × List Char)
  | '"' :: cs => (string ('"' :: cs)).map fun x => (.str x.1, x.2)
  | cs        => (number cs).map fun x => (.num x.1, x.2)

def field (cs : List Char) : Option (Field × List Char) := do
  let (key, cs) ← string (skip cs)
  match skip cs with
  | ':' :: cs =>
    let (v, cs) ← value (skip cs)
    return ((key, v), skip cs)
  | _ => none

def fields : Nat → List Char → Option (List Field × List Char)
  | 0, _ => none
  | fuel + 1, cs => do
    let (f, cs) ← field cs
    match cs with
    | ',' :: cs =>
      let (fs, cs) ← fields fuel cs
      return (f :: fs, cs)
    | '\x7d' :: cs => return ([f], cs)
    | _            => none

def decode (cs : List Char) : Option (List Field) :=
  match skip cs with
  | '\x7b' :: cs => do
    let (fs, cs) ← fields cs.length cs
    if skip cs = []
    then return fs
    else none
  | _ => none

end Decode

section Text

def Value.text : Value → List Char
  | .str s => '"' :: s ++ ['"']
  | .num n => (toString n).toList

def fieldText (f : Field) : List Char :=
  '"' :: f.1 ++ '"' :: ':' :: f.2.text

def tailText : List (List Char × Field) → List Char
  | []           => ['\x7d']
  | (sp, f) :: fs => ',' :: sp ++ fieldText f ++ tailText fs

def objectText (f : Field) (fs : List (List Char × Field)) : List Char :=
  '\x7b' :: fieldText f ++ tailText fs

def Value.Plain : Value → Prop
  | .str s => ∀ c ∈ s, isPlain c
  | .num _ => True

def PlainField (f : Field) : Prop :=
  (∀ c ∈ f.1, isPlain c) ∧ f.2.Plain

end Text

section Decoded

variable {s cs rest : List Char} {v : Value} {f : Field} {fs : List (List Char × Field)}

theorem skip_append {sp : List Char} (h : ∀ c ∈ sp, isSpace c) : skip (sp ++ cs) = skip cs :=
  List.dropWhile_append_of_pos h

theorem skip_cons {c : Char} (h : isSpace c = false) : skip (c :: cs) = c :: cs := by
  rw [skip, List.dropWhile_cons_of_neg (by simp [h])]

theorem string_text (h : ∀ c ∈ s, isPlain c) : string ('"' :: s ++ '"' :: rest) = some (s, rest) := by
  have hq : isPlain '"' = false := rfl
  rw [List.cons_append, string, List.dropWhile_append_of_pos h, List.takeWhile_append_of_pos h,
    List.dropWhile_cons_of_neg (by simp [hq]), List.takeWhile_cons_of_neg (by simp [hq]), List.append_nil]
  rfl

theorem eq_zero_of_toDigits {n : Nat} {ds : List Char} (h : Nat.toDigits 10 n = '0' :: ds) : n = 0 := by
  induction n using Nat.strong_induction_on generalizing ds
  case h n hi =>
    by_cases hn : n < 10
    case pos =>
      rw [Nat.toDigits_of_lt_base hn] at h
      have hz : ∀ n < 10, (n.digitChar = '0') → n = 0 := by decide
      exact hz n hn (List.cons.inj h).left
    case neg =>
      rw [Nat.toDigits_of_base_le (by decide) (Nat.not_lt.mp hn)] at h
      obtain ⟨d, ds', hd⟩ := List.exists_cons_of_ne_nil (Nat.toDigits_ne_nil (n := n / 10) (b := 10))
      rw [hd] at h
      have hz := hi (n / 10) (by omega) ((List.cons.inj h).left ▸ hd)
      omega

theorem natural_text {n : Nat} (h : ∀ c ∈ rest.head?, c.isDigit = false) :
    natural (Nat.toDigits 10 n ++ rest) = some (n, rest) := by
  have hds : ∀ c ∈ Nat.toDigits 10 n, c.isDigit :=
    fun c hc => Nat.isDigit_of_mem_toDigits (by decide) (by decide) hc
  have ht : rest.takeWhile (·.isDigit) = [] ∧ rest.dropWhile (·.isDigit) = rest := by
    cases rest
    case nil       => exact ⟨rfl, rfl⟩
    case cons c cs => simp [h c rfl]
  rw [natural, List.takeWhile_append_of_pos hds, List.dropWhile_append_of_pos hds, ht.left, ht.right,
    List.append_nil]
  split
  case h_1 he => exact absurd he Nat.toDigits_ne_nil
  case h_2 he =>
    rw [eq_zero_of_toDigits he, Nat.toDigits_zero] at he
    cases he
  case h_3 => rw [Nat.ofDigitChars_toDigits (by decide) (by decide)]

theorem toList_toString_ofNat {n : Nat} : (toString (Int.ofNat n)).toList = Nat.toDigits 10 n :=
  Nat.toList_repr

theorem toList_toString_negSucc {n : Nat} :
    (toString (Int.negSucc n)).toList = '-' :: Nat.toDigits 10 (n + 1) := by
  rw [← Nat.toList_repr]
  exact String.toList_append

theorem toDigits_cons {n : Nat} : ∃ d ds, Nat.toDigits 10 n = d :: ds ∧ d.isDigit := by
  obtain ⟨d, ds, hd⟩ := List.exists_cons_of_ne_nil (Nat.toDigits_ne_nil (n := n) (b := 10))
  exact ⟨d, ds, hd, Nat.isDigit_of_mem_toDigits (n := n) (b := 10) (by decide) (by decide)
    (hd ▸ List.mem_cons_self)⟩

theorem ne_of_isDigit {c d : Char} (hc : c.isDigit) (hd : d.isDigit = false) : c ≠ d := by
  rintro rfl
  simp [hd] at hc

theorem toList_toString_cons {n : Int} :
    ∃ c cs, (toString n).toList = c :: cs ∧ c ≠ '"' ∧ isSpace c = false := by
  cases n
  case ofNat n =>
    obtain ⟨d, ds, hd, hdig⟩ := toDigits_cons (n := n)
    have hs : isSpace d = false := by
      simp [isSpace, ne_of_isDigit (d := ' ') hdig rfl, ne_of_isDigit (d := '\t') hdig rfl,
        ne_of_isDigit (d := '\n') hdig rfl, ne_of_isDigit (d := '\r') hdig rfl]
    exact ⟨d, ds, toList_toString_ofNat.trans hd, ne_of_isDigit hdig rfl, hs⟩
  case negSucc n => exact ⟨'-', _, toList_toString_negSucc, by decide, rfl⟩

theorem number_text {n : Int} (h : ∀ c ∈ rest.head?, c.isDigit = false) :
    number ((toString n).toList ++ rest) = some (n, rest) := by
  cases n
  case ofNat n =>
    obtain ⟨d, ds, hd, hdig⟩ := toDigits_cons (n := n)
    have hne : ∀ cs, d :: ds ++ rest ≠ '-' :: cs := by
      rintro cs he
      exact ne_of_isDigit (d := '-') hdig rfl (List.cons.inj he).left
    rw [toList_toString_ofNat, hd, number.eq_2 _ hne, ← hd, natural_text h]
    rfl
  case negSucc n =>
    rw [toList_toString_negSucc, List.cons_append, number, natural_text h]
    rfl

theorem value_text (hv : v.Plain) (h : ∀ c ∈ rest.head?, c.isDigit = false) :
    value (v.text ++ rest) = some (v, rest) := by
  cases v
  case str s =>
    have hs : string ('"' :: s ++ '"' :: rest) = some (s, rest) := string_text hv
    simp only [Value.text, List.cons_append, List.append_assoc, List.nil_append] at hs ⊢
    rw [value, hs]
    rfl
  case num n =>
    have hne : ∀ cs, (toString n).toList ++ rest ≠ '"' :: cs := by
      obtain ⟨c, _, ht, hc, _⟩ := toList_toString_cons (n := n)
      rw [ht]
      exact fun cs he => hc (List.cons.inj he).left
    rw [Value.text, value.eq_2 _ hne, number_text h]
    rfl

theorem field_text {sp : List Char} (hs : ∀ c ∈ sp, isSpace c) (hf : PlainField f)
    (h : ∀ c ∈ rest.head?, c.isDigit = false ∧ isSpace c = false) :
    field (sp ++ fieldText f ++ rest) = some (f, rest) := by
  have hv : value (f.2.text ++ rest) = some (f.2, rest) := value_text hf.right fun c hc => (h c hc).left
  have hr : skip rest = rest := by
    cases rest
    case nil       => rfl
    case cons c cs => exact skip_cons (h c rfl).right
  have hk : skip (sp ++ fieldText f ++ rest) = '"' :: f.1 ++ '"' :: (':' :: (f.2.text ++ rest)) := by
    rw [List.append_assoc, skip_append hs, fieldText]
    simp only [List.cons_append, List.append_assoc]
    exact skip_cons rfl
  have hval : skip (f.2.text ++ rest) = f.2.text ++ rest := by
    obtain ⟨c, cs, ht, hc⟩ : ∃ c cs, f.2.text = c :: cs ∧ isSpace c = false := by
      cases f.2
      case str => exact ⟨_, _, rfl, rfl⟩
      case num =>
        obtain ⟨c, cs, ht, _, hc⟩ := toList_toString_cons
        exact ⟨c, cs, ht, hc⟩
    rw [ht, List.cons_append, skip_cons hc]
  simp only [field, hk, string_text hf.left, skip_cons (c := ':') rfl, hval, hv, hr, Option.bind_eq_bind,
    Option.bind_some, Option.pure_def]

theorem fields_text {fuel : Nat} (hf : PlainField f) {sp : List Char} (hs : ∀ c ∈ sp, isSpace c)
    (hfs : ∀ x ∈ fs, (∀ c ∈ x.1, isSpace c) ∧ PlainField x.2) (hl : fs.length < fuel) :
    fields fuel (sp ++ fieldText f ++ tailText fs) = some (f :: fs.map (·.2), []) := by
  induction fs generalizing f sp fuel
  case nil =>
    obtain ⟨fuel, rfl⟩ : ∃ n, fuel = n + 1 := ⟨fuel - 1, by simp at hl; omega⟩
    rw [fields, field_text hs hf (by simp [tailText, isSpace])]
    rfl
  case cons x fs hi =>
    obtain ⟨fuel, rfl⟩ : ∃ n, fuel = n + 1 := ⟨fuel - 1, by simp at hl; omega⟩
    obtain ⟨hsx, hx⟩ := hfs x List.mem_cons_self
    have hrest := hi hx hsx (fun y hy => hfs y (List.mem_cons_of_mem x hy)) (by simpa using hl)
    rw [fields, field_text hs hf (by simp [tailText, isSpace])]
    simp only [tailText, List.cons_append, hrest, Option.bind_eq_bind, Option.bind_some, Option.pure_def,
      List.map_cons]

theorem decode_text (hf : PlainField f) (hfs : ∀ x ∈ fs, (∀ c ∈ x.1, isSpace c) ∧ PlainField x.2) :
    decode (objectText f fs) = some (f :: fs.map (·.2)) := by
  have hl : fs.length < (fieldText f ++ tailText fs).length := by
    have : fs.length ≤ (tailText fs).length := by
      induction fs
      case nil => simp
      case cons x fs hi =>
        have := hi fun y hy => hfs y (List.mem_cons_of_mem x hy)
        simp only [tailText, List.length_append, List.length_cons]
        omega
    simp only [fieldText, List.length_append, List.length_cons]
    omega
  have hs : ∀ c ∈ ([] : List Char), isSpace c := by simp
  have ht := fields_text hf hs hfs hl
  rw [List.nil_append] at ht
  rw [decode, objectText, List.cons_append, skip_cons rfl]
  simp only [ht, Option.bind_eq_bind, Option.bind_some, Option.pure_def]
  rfl

theorem string_plain (h : string cs = some (s, rest)) : ∀ c ∈ s, isPlain c := by
  unfold string at h
  split at h
  case h_2 => contradiction
  case h_1 =>
    split at h
    case h_2 => contradiction
    case h_1 =>
      cases h
      exact fun c hc => List.mem_takeWhile_imp hc

theorem value_plain (h : value cs = some (v, rest)) : v.Plain := by
  unfold value at h
  split at h
  case h_1 =>
    obtain ⟨_, hs, he⟩ := Option.map_eq_some_iff.mp h
    cases he
    exact string_plain hs
  case h_2 =>
    obtain ⟨_, _, he⟩ := Option.map_eq_some_iff.mp h
    cases he
    trivial

theorem field_plain (h : field cs = some (f, rest)) : PlainField f := by
  simp only [field, Option.bind_eq_bind, Option.pure_def] at h
  obtain ⟨_, hk, h⟩ := Option.bind_eq_some_iff.mp h
  split at h
  case h_2 => contradiction
  case h_1 =>
    obtain ⟨_, hv, h⟩ := Option.bind_eq_some_iff.mp h
    cases h
    exact ⟨string_plain hk, value_plain hv⟩

theorem fields_plain {fuel : Nat} {fs : List Field} (h : fields fuel cs = some (fs, rest)) :
    ∀ f ∈ fs, PlainField f := by
  induction fuel generalizing cs fs
  case zero => contradiction
  case succ fuel hi =>
    simp only [fields, Option.bind_eq_bind, Option.pure_def] at h
    obtain ⟨_, hf, h⟩ := Option.bind_eq_some_iff.mp h
    split at h
    case h_1 =>
      obtain ⟨_, hfs, h⟩ := Option.bind_eq_some_iff.mp h
      cases h
      exact List.forall_mem_cons.mpr ⟨field_plain hf, hi hfs⟩
    case h_2 =>
      cases h
      simpa using field_plain hf
    case h_3 => contradiction

theorem decode_plain {fs : List Field} (h : decode cs = some fs) : ∀ f ∈ fs, PlainField f := by
  unfold decode at h
  split at h
  case h_2 => contradiction
  case h_1 =>
    simp only [Option.bind_eq_bind, Option.pure_def] at h
    obtain ⟨_, hfs, h⟩ := Option.bind_eq_some_iff.mp h
    split at h
    case isTrue  => cases h; exact fields_plain hfs
    case isFalse => contradiction

end Decoded

end Json
