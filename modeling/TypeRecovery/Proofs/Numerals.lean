import Mathlib.Data.List.Basic
import TypeRecovery.Variable

/-!
# Reading numerals back

A numeral that was written is read back as the number it stands for, so numerals and the texts of
variables tell apart what they are written for.
-/
namespace TypeRecovery

namespace Numeral

variable {base : Nat} {digit? : Char → Option Nat}

theorem value?_toDigits (hbase : 1 < base) (hdigit : ∀ d < base, digit? d.digitChar = some d)
    (n : Nat) : value? base digit? (Nat.toDigits base n) = some n := by
  induction n using Nat.strongRecOn with
  | ind n ih =>
    rw [Nat.toDigits_eq_if hbase]
    split
    case isTrue hlt => simp [value?, hdigit n hlt]
    case isFalse hle =>
      have hdiv : n / base < n := Nat.div_lt_self (by omega) hbase
      have hmod : n % base < base := Nat.mod_lt n (by omega)
      have hhigh := ih (n / base) hdiv
      unfold value? at hhigh ⊢
      rw [List.foldlM_append, hhigh]
      simp [hdigit _ hmod, Nat.div_add_mod']

theorem isSome_digit? {cs : List Char} {n : Nat} (h : value? base digit? cs = some n) :
    ∀ c ∈ cs, (digit? c).isSome = true := by
  have hfold : ∀ (cs : List Char) (k : Nat),
      cs.foldlM (fun n c => (digit? c).map fun d => n * base + d) k = some n →
        ∀ c ∈ cs, (digit? c).isSome = true := by
    intro cs
    induction cs with
    | nil => simp
    | cons c rest ih =>
      intro k hk
      rw [List.foldlM_cons] at hk
      obtain ⟨k', hc, hrest⟩ := Option.bind_eq_some_iff.1 hk
      obtain ⟨d, hd, _⟩ := Option.map_eq_some_iff.1 hc
      simp only [List.mem_cons, forall_eq_or_imp]
      exact ⟨by simp [hd], ih k' hrest⟩
  exact hfold cs 0 h

theorem value?_hex (n : Nat) : value? 16 hexDigit? (Nat.toDigits 16 n) = some n :=
  value?_toDigits (by decide) (by decide) n

theorem value?_decimal (n : Nat) : value? 10 decimalDigit? (Nat.toDigits 10 n) = some n :=
  value?_toDigits (by decide) (by decide) n

theorem toDigits_injective (h : ∀ n, value? base digit? (Nat.toDigits base n) = some n) :
    Function.Injective (Nat.toDigits base) := by
  intro m n hmn
  have hm := h m
  rw [hmn, h n] at hm
  exact (Option.some.inj hm).symm

theorem notMem_toDigits (h : ∀ n, value? base digit? (Nat.toDigits base n) = some n) {c : Char}
    (hc : digit? c = none) (n : Nat) : c ∉ Nat.toDigits base n := by
  intro hmem
  have hsome := isSome_digit? (h n) c hmem
  rw [hc] at hsome
  cases hsome

end Numeral

theorem Variable.text_injective : Function.Injective Variable.text := by
  intro v w h
  have hlist := congrArg String.toList h
  cases v with
  | «local» f i =>
    cases w with
    | «local» g j =>
      -- the colon ends the address of the function
      have hsplit : Nat.toDigits 16 f ++ ':' :: 'v' :: Nat.toDigits 10 i =
          Nat.toDigits 16 g ++ ':' :: 'v' :: Nat.toDigits 10 j := by
        simpa [text, Numeral.hex, Numeral.decimal] using hlist
      have hf : ':' ∉ Nat.toDigits 16 f := Numeral.notMem_toDigits Numeral.value?_hex (by decide) f
      have hi : ':' ∉ Nat.toDigits 10 i :=
        Numeral.notMem_toDigits Numeral.value?_decimal (by decide) i
      have hvi : ':' ∉ 'v' :: Nat.toDigits 10 i := by simp [hi]
      obtain ⟨hfg, _, hij⟩ := (List.append_cons_inj_of_notMem hf hvi).1 hsplit
      rw [Numeral.toDigits_injective Numeral.value?_hex hfg,
        Numeral.toDigits_injective Numeral.value?_decimal (List.cons.inj hij).2]
    | global b => simp [text] at hlist
  | global a =>
    cases w with
    | «local» g j => simp [text] at hlist
    | global b =>
      have hdigits : Nat.toDigits 16 a = Nat.toDigits 16 b := by
        simpa [text, Numeral.hex] using hlist
      rw [Numeral.toDigits_injective Numeral.value?_hex hdigits]

end TypeRecovery
