import Mathlib.Data.List.DropRight
import Mathlib.Data.Nat.Digits.Defs
import SsuOs.Lib.CInput

/-! Formatted input of the C library, in its default locale: white space, numbers, strings and
characters. An argument of a conversion is the update it makes to the memory of the caller. -/
namespace SsuOs.Lib.Scanf

inductive ScanFault
  | outOfRange
  | outOfBounds
  deriving DecidableEq, Repr

def isSpace (c : UInt8) : Bool := c = 32 || 9 ≤ c && c ≤ 13

def isDigit (c : UInt8) : Bool := 48 ≤ c && c ≤ 57

def isSign (c : UInt8) : Bool := c = 43 || c = 45

theorem not_space_of_digit {c : UInt8} (h : isDigit c = true) :
    isSpace c = false ∧ isSign c = false := by
  simp only [isDigit, Bool.and_eq_true, decide_eq_true_eq, UInt8.le_iff_toNat_le] at h
  simp only [isSpace, isSign, Bool.or_eq_false_iff, Bool.and_eq_false_iff, decide_eq_false_iff_not,
    UInt8.le_iff_toNat_le, ← UInt8.toNat_inj]
  simp only [UInt8.reduceToNat] at h ⊢
  omega

theorem not_digit_of_space {c : UInt8} (h : isSpace c = true) : isDigit c = false := by
  by_contra hd
  rw [(not_space_of_digit (by simpa using hd)).1] at h
  exact absurd h (by simp)

section Cut

variable {α : Type*} {p : α → Bool} {c : α} (hc : p c = false) (u v : List α)
include hc

theorem takeWhile_append_stop : (u ++ c :: v).takeWhile p = u.takeWhile p := by
  induction u with
  | nil => simp [hc]
  | cons a u ih =>
    rw [List.cons_append, List.takeWhile_cons, List.takeWhile_cons, ih]

theorem dropWhile_append_stop : (u ++ c :: v).dropWhile p = u.dropWhile p ++ c :: v := by
  induction u with
  | nil => simp [hc]
  | cons a u ih =>
    rw [List.cons_append, List.dropWhile_cons, List.dropWhile_cons, ih]
    split_ifs <;> rfl

end Cut

/-! ### Numbers -/

def value (ds : List UInt8) : ℕ := ds.foldl (fun v c => 10 * v + (c.toNat - 48)) 0

/-- Whether the text begins with a minus sign, and what is behind its sign. -/
def takeSign : List UInt8 → Bool × List UInt8
  | [] => (false, [])
  | c :: text => if isSign c then (c = 45, text) else (false, c :: text)

/-- The sign and the magnitude of the number the text begins with, and the text behind it. -/
def readInt (text : List UInt8) : Option (Bool × ℕ × List UInt8) :=
  let (neg, text) := takeSign text
  if text.takeWhile isDigit = [] then none
  else some (neg, value (text.takeWhile isDigit), text.dropWhile isDigit)

def decimalNat (n : ℕ) : List UInt8 :=
  if n = 0 then [48] else (Nat.digits 10 n).reverse.map fun d => UInt8.ofNat (48 + d)

def decimal (v : ℤ) : List UInt8 :=
  if v < 0 then 45 :: decimalNat v.natAbs else decimalNat v.natAbs

theorem toNat_digit {d : ℕ} (h : d < 10) : (UInt8.ofNat (48 + d)).toNat = 48 + d := by
  rw [UInt8.toNat_ofNat']
  omega

theorem isDigit_digit {d : ℕ} (h : d < 10) : isDigit (UInt8.ofNat (48 + d)) = true := by
  simp only [isDigit, Bool.and_eq_true, decide_eq_true_eq, UInt8.le_iff_toNat_le, toNat_digit h]
  simp only [UInt8.reduceToNat]
  omega

theorem decimalNat_ne_nil (n : ℕ) : decimalNat n ≠ [] := by
  unfold decimalNat
  split_ifs with hn
  · simp
  · simpa [Nat.digits_eq_nil_iff_eq_zero] using hn

theorem isDigit_of_mem_decimalNat {n : ℕ} {c : UInt8} (h : c ∈ decimalNat n) :
    isDigit c = true := by
  unfold decimalNat at h
  split_ifs at h with hn
  · rw [List.mem_singleton.mp h]
    rfl
  · obtain ⟨d, hd, rfl⟩ := List.mem_map.mp h
    exact isDigit_digit (Nat.digits_lt_base (by decide) (List.mem_reverse.mp hd))

theorem value_decimalNat (n : ℕ) : value (decimalNat n) = n := by
  unfold decimalNat
  split_ifs with hn
  · rw [hn]
    rfl
  · have hdigit : ∀ d ∈ Nat.digits 10 n, ∀ v,
        d + 10 * v = 10 * v + ((UInt8.ofNat (48 + d)).toNat - 48) := by
      intro d hd v
      rw [toNat_digit (Nat.digits_lt_base (by decide) hd)]
      omega
    rw [value, List.foldl_map, List.foldl_reverse]
    conv_rhs => rw [← Nat.ofDigits_digits 10 n, Nat.ofDigits_eq_foldr]
    exact List.foldr_ext _ _ _ fun d hd v => (hdigit d hd v).symm

section ReadInt

variable {rest : List UInt8}

theorem takeWhile_decimalNat (n : ℕ) (hrest : ∀ c ∈ rest.head?, isDigit c = false) :
    (decimalNat n ++ rest).takeWhile isDigit = decimalNat n ∧
      (decimalNat n ++ rest).dropWhile isDigit = rest := by
  have hall : ∀ c ∈ decimalNat n, isDigit c = true := fun c hc => isDigit_of_mem_decimalNat hc
  rw [List.takeWhile_append_of_pos hall, List.dropWhile_append_of_pos hall]
  cases rest with
  | nil => simp
  | cons c rest => simp [hrest c rfl]

theorem takeSign_decimal (v : ℤ) :
    takeSign (decimal v ++ rest) = (decide (v < 0), decimalNat v.natAbs ++ rest) := by
  unfold decimal
  split_ifs with hv
  · simp [takeSign, isSign, hv]
  · obtain ⟨c, ds, hds⟩ := List.exists_cons_of_ne_nil (decimalNat_ne_nil v.natAbs)
    have hc : isSign c = false :=
      (not_space_of_digit (isDigit_of_mem_decimalNat (hds ▸ List.mem_cons_self))).2
    simp [hds, takeSign, hc, hv]

theorem readInt_decimal (v : ℤ) (hrest : ∀ c ∈ rest.head?, isDigit c = false) :
    readInt (decimal v ++ rest) = some (decide (v < 0), v.natAbs, rest) := by
  obtain ⟨htake, hdrop⟩ := takeWhile_decimalNat v.natAbs hrest
  simp only [readInt, takeSign_decimal, htake, hdrop, value_decimalNat]
  rw [if_neg (decimalNat_ne_nil _)]

theorem decimal_head (v : ℤ) : ∃ c l, decimal v = c :: l ∧ isSpace c = false := by
  unfold decimal
  split_ifs with hv
  · exact ⟨45, decimalNat v.natAbs, rfl, rfl⟩
  · obtain ⟨c, l, hl⟩ := List.exists_cons_of_ne_nil (decimalNat_ne_nil v.natAbs)
    have hc := isDigit_of_mem_decimalNat (hl ▸ List.mem_cons_self)
    exact ⟨c, l, hl, (not_space_of_digit hc).1⟩

theorem readInt_stop {c : UInt8} {u v : List UInt8} {neg : Bool} {n : ℕ}
    (hdigit : isDigit c = false) (hsign : isSign c = false)
    (h : readInt (u ++ c :: v) = some (neg, n, rest)) :
    ∃ u', rest = u' ++ c :: v ∧ u'.length < u.length := by
  have hsplit : ∃ neg' u₁, takeSign (u ++ c :: v) = (neg', u₁ ++ c :: v) ∧
      u₁.length ≤ u.length := by
    cases u with
    | nil => exact ⟨false, [], by simp [takeSign, hsign], le_rfl⟩
    | cons a u =>
      simp only [List.cons_append, takeSign]
      split_ifs
      · exact ⟨_, u, rfl, by simp⟩
      · exact ⟨_, a :: u, rfl, le_rfl⟩
  obtain ⟨neg', u₁, hu₁, hlen⟩ := hsplit
  simp only [readInt, hu₁, takeWhile_append_stop hdigit, dropWhile_append_stop hdigit] at h
  split_ifs at h with hnil
  simp only [Option.some.injEq, Prod.mk.injEq] at h
  obtain ⟨-, -, rfl⟩ := h
  refine ⟨u₁.dropWhile isDigit, rfl, ?_⟩
  have hpos := List.length_pos_of_ne_nil hnil
  have hsum := congrArg List.length (List.takeWhile_append_dropWhile (p := isDigit) (l := u₁))
  rw [List.length_append] at hsum
  omega

end ReadInt

/-! ### Directives -/

/-- An integer type of `bits` bits. -/
structure IntType where
  signed : Bool
  bits : ℕ

/-- The value that a sign and a magnitude have in the type; a minus sign wraps around in an
unsigned one. -/
def IntType.convert (t : IntType) (neg : Bool) (n : ℕ) : Except ScanFault ℤ :=
  let v : ℤ := if neg then -n else n
  if t.signed then
    if -2 ^ (t.bits - 1) ≤ v ∧ v < 2 ^ (t.bits - 1) then .ok v else .error .outOfRange
  else if n < 2 ^ t.bits then .ok (v % 2 ^ t.bits) else .error .outOfRange

def IntType.Fits (t : IntType) (v : ℤ) : Prop :=
  if t.signed then -2 ^ (t.bits - 1) ≤ v ∧ v < 2 ^ (t.bits - 1) else 0 ≤ v ∧ v < 2 ^ t.bits

structure IntArg (σ : Type) where
  type : IntType
  set : ℤ → σ → σ

structure StringArg (σ : Type) where
  get : σ → CString.Buffer
  set : CString.Buffer → σ → σ

/-- A part of a format. A number without an argument is read and not assigned. -/
inductive Directive (σ : Type)
  | space
  | char (set : UInt8 → σ → σ)
  | string (arg : StringArg σ)
  | int (arg : Option (IntArg σ))

section Scan

variable {σ : Type}

def Directive.intArg : Directive σ → Option (Option (IntArg σ))
  | .int arg => some arg
  | _ => none

/-- The conversion itself skips white space. -/
def Directive.skips : Directive σ → Bool
  | .space | .char _ => false
  | .string _ | .int _ => true

def StringArg.store (a : StringArg σ) (s : List UInt8) (m : σ) : Except ScanFault σ :=
  match CString.storeString (a.get m) s with
  | .ok b => .ok (a.set b m)
  | .error _ => .error .outOfBounds

def assign (arg : Option (IntArg σ)) (neg : Bool) (n : ℕ) (m : σ) : Except ScanFault σ :=
  match arg with
  | none => .ok m
  | some a => (a.type.convert neg n).map (a.set · m)

/-- The memory behind `scanf`, which stops at the first conversion that finds no input for it. -/
def scanf : List (Directive σ) → List UInt8 → σ → Except ScanFault σ
  | [], _, m => .ok m
  | .space :: ds, text, m => scanf ds (text.dropWhile isSpace) m
  | .char set :: ds, text, m =>
    match text with
    | [] => .ok m
    | c :: text => scanf ds text (set c m)
  | .string arg :: ds, text, m =>
    let text := text.dropWhile isSpace
    if text = [] then .ok m
    else do
      let m ← arg.store (text.takeWhile (!isSpace ·)) m
      scanf ds (text.dropWhile (!isSpace ·)) m
  | .int arg :: ds, text, m =>
    match readInt (text.dropWhile isSpace) with
    | none => .ok m
    | some (neg, n, text) => do
      let m ← assign arg neg n m
      scanf ds text m

def Fits (arg : Option (IntArg σ)) (v : ℤ) : Prop := ∀ a ∈ arg, a.type.Fits v

def put (arg : Option (IntArg σ)) (v : ℤ) (m : σ) : σ := arg.elim m (·.set v m)

def putAll : List (Option (IntArg σ)) → List ℤ → σ → σ
  | arg :: args, v :: vs, m => putAll args vs (put arg v m)
  | _, _, m => m

theorem IntType.Fits.convert_eq {t : IntType} {v : ℤ} (h : t.Fits v) :
    t.convert (decide (v < 0)) v.natAbs = .ok v := by
  have hv : (if decide (v < 0) = true then -(v.natAbs : ℤ) else v.natAbs) = v := by
    simp only [decide_eq_true_eq]
    split_ifs <;> omega
  unfold IntType.Fits at h
  simp only [IntType.convert, hv]
  split_ifs at h ⊢ with hs hlt
  · rfl
  · rw [Int.emod_eq_of_lt h.1 h.2]
  · have habs : (v.natAbs : ℤ) = v := Int.natAbs_of_nonneg h.1
    refine absurd ?_ hlt
    exact_mod_cast habs ▸ h.2

theorem assign_of_fits {arg : Option (IntArg σ)} {v : ℤ} (h : Fits arg v) (m : σ) :
    assign arg (decide (v < 0)) v.natAbs m = .ok (put arg v m) := by
  cases arg with
  | none => rfl
  | some a => rw [assign, (h a rfl).convert_eq]; rfl

variable {ds es : List (Directive σ)} {m m' : σ} {text rest : List UInt8}

theorem scanf_space_cons {d : Directive σ} (hd : d.skips = true) :
    scanf (.space :: d :: ds) text m = scanf (d :: ds) text m := by
  have hidem : (text.dropWhile isSpace).dropWhile isSpace = text.dropWhile isSpace :=
    List.dropWhile_idempotent isSpace text
  cases d with
  | space => simp [Directive.skips] at hd
  | char set => simp [Directive.skips] at hd
  | string arg => simp only [scanf, hidem]
  | int arg => simp only [scanf, hidem]

theorem scanf_cons_congr (d : Directive σ) (h : ∀ text m, scanf ds text m = scanf es text m) :
    scanf (d :: ds) text m = scanf (d :: es) text m := by
  cases d <;> simp only [scanf, h]

/-- The format without the white space that says nothing. -/
def unspaced : List (Directive σ) → List (Directive σ)
  | [] => []
  | [d] => [d]
  | .space :: d :: ds => if d.skips then unspaced (d :: ds) else .space :: unspaced (d :: ds)
  | d :: ds => d :: unspaced ds

theorem scanf_unspaced (ds : List (Directive σ)) (text : List UInt8) (m : σ) :
    scanf (unspaced ds) text m = scanf ds text m := by
  fun_induction unspaced ds generalizing text m with
  | case1 => rfl
  | case2 => rfl
  | case3 d ds hd ih => rw [scanf_space_cons hd, ih]
  | case4 d ds hd ih => rw [scanf_cons_congr _ ih]
  | case5 d ds _ _ ih => rw [scanf_cons_congr _ ih]

theorem scanf_int {arg : Option (IntArg σ)} {v : ℤ} (hfits : Fits arg v) (blanks : List UInt8)
    (hblanks : ∀ c ∈ blanks, isSpace c = true)
    (hrest : ∀ c ∈ rest.head?, isDigit c = false) :
    scanf (.int arg :: ds) (blanks ++ decimal v ++ rest) m = scanf ds rest (put arg v m) := by
  obtain ⟨c, l, hl, hc⟩ := decimal_head v
  have hdrop : (blanks ++ decimal v ++ rest).dropWhile isSpace = decimal v ++ rest := by
    rw [List.append_assoc, List.dropWhile_append_of_pos hblanks, hl]
    simp [hc]
  rw [scanf, hdrop, readInt_decimal v hrest]
  simp only [assign_of_fits hfits]
  rfl

theorem scanf_string {arg : StringArg σ} {s : List UInt8} (hs : s ≠ [])
    (hsolid : ∀ c ∈ s, isSpace c = false) (blanks : List UInt8)
    (hblanks : ∀ c ∈ blanks, isSpace c = true) (hrest : ∀ c ∈ rest.head?, isSpace c = true) :
    scanf (.string arg :: ds) (blanks ++ s ++ rest) m =
      arg.store s m >>= fun m => scanf ds rest m := by
  have hall : ∀ c ∈ s, (!isSpace c) = true := fun c hc => by rw [hsolid c hc]; rfl
  have hdrop : (blanks ++ s ++ rest).dropWhile isSpace = s ++ rest := by
    obtain ⟨c, l, rfl⟩ := List.exists_cons_of_ne_nil hs
    rw [List.append_assoc, List.dropWhile_append_of_pos hblanks]
    simp [hsolid c List.mem_cons_self]
  have hcut : (s ++ rest).takeWhile (!isSpace ·) = s ∧
      (s ++ rest).dropWhile (!isSpace ·) = rest := by
    rw [List.takeWhile_append_of_pos hall, List.dropWhile_append_of_pos hall]
    cases rest with
    | nil => simp
    | cons c rest => simp [hrest c rfl]
  have hne : s ++ rest ≠ [] := by simp [hs]
  simp only [scanf, hdrop, hcut, if_neg hne]

theorem scanf_space_char {set : UInt8 → σ → σ} {c : UInt8} (hc : isSpace c = false)
    (blanks : List UInt8) (hblanks : ∀ c ∈ blanks, isSpace c = true) :
    scanf (.space :: .char set :: ds) (blanks ++ c :: rest) m = scanf ds rest (set c m) := by
  have hdrop : (blanks ++ c :: rest).dropWhile isSpace = c :: rest := by
    rw [List.dropWhile_append_of_pos hblanks]
    simp [hc]
  rw [scanf, hdrop, scanf]

/-- Numbers with one blank in front of each are read one after the other. -/
theorem scanf_ints {args : List (Option (IntArg σ))} {vs : List ℤ}
    (hfits : List.Forall₂ Fits args vs) (hrest : ∀ c ∈ rest.head?, isDigit c = false) (m : σ) :
    scanf (args.map .int) (vs.flatMap (32 :: decimal ·) ++ rest) m = .ok (putAll args vs m) := by
  induction hfits generalizing m with
  | nil => rfl
  | @cons arg v args vs hv hvs ih =>
    have hnext : ∀ c ∈ (vs.flatMap (32 :: decimal ·) ++ rest).head?, isDigit c = false := by
      cases vs with
      | nil => exact hrest
      | cons v vs => simp [isDigit]
    rw [List.map_cons, List.flatMap_cons, List.append_assoc, putAll, ← ih]
    exact scanf_int hv [32] (by simp [isSpace]) hnext

/-- Numbers are read up to a character that can be no part of one. When there are fewer characters
in front of it than numbers asked for, what follows in the format is not reached. -/
theorem scanf_ints_stop {args : List (Option (IntArg σ))} {c : UInt8} {u v : List UInt8}
    (hspace : isSpace c = false) (hdigit : isDigit c = false) (hsign : isSign c = false)
    (hlen : u.length < args.length) :
    scanf (args.map .int ++ ds) (u ++ c :: v) m = scanf (args.map .int) (u ++ c :: v) m := by
  induction args generalizing u m with
  | nil => simp at hlen
  | cons arg args ih =>
    simp only [List.map_cons, List.cons_append, scanf, dropWhile_append_stop hspace]
    split
    · rfl
    · rename_i neg n rest hread
      obtain ⟨u', rfl, hlt⟩ := readInt_stop hdigit hsign hread
      have hdrop := (List.dropWhile_sublist isSpace (l := u)).length_le
      have hlen' : u'.length < args.length := by
        rw [List.length_cons] at hlen
        omega
      cases assign arg neg n m with
      | error e => rfl
      | ok m' => exact ih hlen'

/-- A directive that does not store where `f` looks. -/
def Directive.Keeps {α : Type*} (f : σ → α) : Directive σ → Prop
  | .space => True
  | .char set => ∀ c m, f (set c m) = f m
  | .string arg => ∀ b m, f (arg.set b m) = f m
  | .int arg => ∀ a ∈ arg, ∀ v m, f (a.set v m) = f m

theorem scanf_keeps {α : Type*} {f : σ → α} (h : ∀ d ∈ ds, d.Keeps f)
    (hscan : scanf ds text m = .ok m') : f m' = f m := by
  induction ds generalizing text m with
  | nil =>
    rw [Except.ok.inj hscan]
  | cons d ds ih =>
    obtain ⟨hd, hds⟩ := List.forall_mem_cons.mp h
    cases d with
    | space => exact ih hds hscan
    | char set =>
      cases text with
      | nil => rw [Except.ok.inj hscan]
      | cons c text => exact (ih hds hscan).trans (hd c m)
    | string arg =>
      simp only [scanf] at hscan
      split_ifs at hscan with hnil
      · rw [Except.ok.inj hscan]
      · obtain ⟨m₁, hm₁, hscan⟩ := bind_eq_ok.mp hscan
        refine (ih hds hscan).trans ?_
        unfold StringArg.store at hm₁
        split at hm₁
        · rw [← Except.ok.inj hm₁, hd]
        · simp at hm₁
    | int arg =>
      simp only [scanf] at hscan
      split at hscan
      · rw [Except.ok.inj hscan]
      · obtain ⟨m₁, hm₁, hscan⟩ := bind_eq_ok.mp hscan
        refine (ih hds hscan).trans ?_
        cases arg with
        | none => rw [Except.ok.inj hm₁]
        | some a =>
          obtain ⟨v, -, rfl⟩ := map_eq_ok.mp hm₁
          exact hd a rfl v m

end Scan

end SsuOs.Lib.Scanf
