import SqfIndex.Proofs.Include.Enumeration
import SqfIndex.Proofs.Path.Steps
import SqfIndex.Proofs.Text.Standing

/-!
# Where aliases lead

An alias stands at the front of a request and whole segments follow it (`Alias.Leads`). They are appended to its
target, and without `..` among them the path lies below the target, unless a second separator follows the alias. Then
what is appended is an absolute path and nothing of the target is left: `aliased_path_below_target_iff`.
-/

namespace SqfIndex

/-! ## Widths of letters -/

namespace Text

theorem utf8Size_toLower (c : Char) : c.toLower.utf8Size = c.utf8Size := by
  by_cases h : c.toNat < 0x80
  · have hall : ∀ n : Fin 0x80, (Char.ofNat n).toLower.utf8Size = (Char.ofNat n).utf8Size := by decide
    simpa using hall ⟨c.toNat, h⟩
  · have hself : c.toLower = c := by
      unfold Char.toLower
      split
      · next hupper =>
        have hval : c.toNat = c.val.toNat := rfl
        have hle := UInt32.le_iff_toNat_le.mp hupper.2
        simp at hle
        omega
      · rfl
    rw [hself]

theorem width_map_toLower (cs : List Char) : width (cs.map Char.toLower) = width cs := by
  induction cs with
  | nil => rfl
  | cons c cs ih => rw [List.map_cons, width_cons, width_cons, utf8Size_toLower, ih]

end Text

open Text (encode)

/-- A text is written as an absolute path exactly if it begins with a slash. -/
theorem Path.isAbsolute_encode (cs : List Char) : (Path.mk (encode cs)).isAbsolute = (cs.head? == some '/') := by
  cases cs with
  | nil => rfl
  | cons c cs =>
      by_cases hc : c = '/'
      · subst hc
        rfl
      · have hne : (encode (c :: cs)).head? ≠ some separator := by
          intro hhead
          have hmem : separator ∈ String.utf8EncodeChar c := by
            cases hbytes : String.utf8EncodeChar c with
            | nil =>
                have hlength := String.length_utf8EncodeChar c
                rw [hbytes] at hlength
                exact absurd hlength (Nat.ne_of_lt c.utf8Size_pos)
            | cons b bytes =>
                rw [Text.encode_cons, hbytes] at hhead
                rw [Option.some.inj hhead]
                exact List.mem_cons_self
          exact hc (Char.toNat_inj.mp (Text.toNat_of_mem_utf8EncodeChar hmem (by decide)))
        rw [isAbsolute, beq_eq_false_iff_ne.mpr hne]
        simpa using hc

theorem Path.steps_encode_slash (cs : List Char) : steps (encode ('/' :: cs)) = steps (encode cs) :=
  steps_separator (encode cs)

namespace Include

variable {entries : List (String × String)} {a : Alias} {path rest : List Char}

/-- The alias stands at the front of a path, up to the case of ASCII letters, and whole segments follow it. -/
def Alias.Leads (a : Alias) (path rest : List Char) : Prop :=
  ∃ head, path = head ++ rest ∧ head.map Char.toLower = a.name.map Char.toLower ∧ (rest = [] ∨ rest.head? = some '/')

theorem Alias.rest?_eq_some_iff : a.rest? path = some rest ↔ a.Leads path rest := by
  unfold rest?
  constructor
  · intro h
    split at h
    · next head rest' hcut =>
      split at h
      · next hmatch =>
        cases h
        exact ⟨head, (Text.cutAt?_eq_some_iff.mp hcut).1, hmatch⟩
      · cases h
    · cases h
  · rintro ⟨head, rfl, hname, hrest⟩
    have hwidth := congrArg Text.width hname
    rw [Text.width_map_toLower, Text.width_map_toLower] at hwidth
    rw [Text.cutAt?_eq_some_iff.mpr ⟨rfl, hwidth⟩]
    exact if_pos ⟨hname, hrest⟩

/-- The path that an alias gives has the steps of its target and those that follow the alias. After a second
separator these begin at the root. -/
theorem Alias.components_pathFor? (htarget : a.target.isAbsolute = true) (h : a.Leads path rest) :
    ∃ p, a.pathFor? path = some p ∧ p.isAbsolute = true ∧
      p.components =
        (if rest.take 2 = ['/', '/'] then [.root] else a.target.components) ++ Path.steps (encode rest) := by
  rw [pathFor?, rest?_eq_some_iff.mpr h, Option.map_some]
  obtain ⟨head, -, -, hrest⟩ := h
  cases rest with
  | nil => exact ⟨_, rfl, htarget, by simp [encode]⟩
  | cons c rest =>
      obtain rfl : c = '/' := by simpa using hrest
      refine ⟨_, rfl, Path.isAbsolute_join htarget, ?_⟩
      rw [Path.steps_encode_slash]
      by_cases hslash : rest.head? = some '/'
      · obtain ⟨rest, rfl⟩ := List.head?_eq_some_iff.mp hslash
        have hjoin : a.target.join ⟨encode ('/' :: rest)⟩ = ⟨encode ('/' :: rest)⟩ := if_pos (Path.isAbsolute_encode _)
        show (a.target.join ⟨encode ('/' :: rest)⟩).components = _
        rw [hjoin, Path.steps_encode_slash]
        exact Path.components_separator (encode rest)
      · have hrelative : (Path.mk (encode rest)).isAbsolute = false := by
          rw [Path.isAbsolute_encode]
          simpa using hslash
        have hsingle : ('/' :: rest).take 2 ≠ ['/', '/'] := by
          intro htake
          cases rest with
          | nil => cases htake
          | cons d rest => exact hslash (by simpa using htake)
        rw [if_neg hsingle]
        exact Path.components_join (Path.bytes_ne_nil htarget) hrelative

/-- Without `..` the steps after an alias have none either. -/
theorem Alias.Leads.up_notMem (h : a.Leads path rest) (hup : Component.up ∉ Path.steps (encode path)) :
    Component.up ∉ Path.steps (encode rest) := by
  obtain ⟨head, rfl, -, rfl | hrest⟩ := h
  · exact List.not_mem_nil
  · obtain ⟨rest, rfl⟩ := List.head?_eq_some_iff.mp hrest
    have hsteps : Path.steps (encode (head ++ '/' :: rest)) = Path.steps (encode head) ++ Path.steps (encode rest) := by
      rw [Text.encode_append]
      exact Path.steps_append (encode head) (encode rest)
    rw [hsteps, List.mem_append, not_or] at hup
    rw [Path.steps_encode_slash]
    exact hup.2

/-- A request that an alias matches is resolved by the alias that is tried first, through the path it gives. -/
theorem exists_picked_resolve (read : Reader) {written : String} (includer : Path)
    (h : ∃ a ∈ configured entries, ∃ rest, a.Leads (normalize written.toList) rest) :
    ∃ a rest p, Picked entries (normalize written.toList) a ∧ a.Leads (normalize written.toList) rest ∧
      a.pathFor? (normalize written.toList) = some p ∧
      (resolver entries read).resolve written includer = .ok (settled p) := by
  obtain ⟨a₀, ha₀, rest₀, hleads₀⟩ := h
  have hrest₀ := Alias.rest?_eq_some_iff.mpr hleads₀
  cases haliased : aliased? (aliases entries) (normalize written.toList) with
  | none =>
      rw [aliased?_eq_none.mp haliased a₀ ha₀] at hrest₀
      cases hrest₀
  | some p =>
      obtain ⟨a, hpicked, hp⟩ := exists_picked haliased
      obtain ⟨rest, hrest⟩ := Option.isSome_iff_exists.mp hpicked.suits
      rw [resolve_resolver]
      exact ⟨a, rest, p, hpicked, Alias.rest?_eq_some_iff.mp hrest, hp, resolve_of_aliased haliased⟩

/-- If targets and request have no `..` and targets are absolute, a request that an alias matches is resolved to a
path with the steps of the alias's normalized target and those that follow the alias, unless a second separator
follows it: then the path has the latter only, after the root. So it is what the alias promises exactly in the first
case, or if the target is the root. -/
theorem aliased_path_below_target_iff (entries : List (String × String)) (read : Reader) (written : String)
    (includer : Path)
    (htargets : ∀ e ∈ entries, (Path.ofText e.2).isAbsolute = true ∧ Component.up ∉ (Path.ofText e.2).components)
    (hup : Component.up ∉ Path.steps (encode (normalize written.toList)))
    (hmatch : ∃ a ∈ configured entries, ∃ rest, a.Leads (normalize written.toList) rest) :
    ∃ a rest target result, Picked entries (normalize written.toList) a ∧ a.Leads (normalize written.toList) rest ∧
      a.target.normalize? = some target ∧ (resolver entries read).resolve written includer = .ok result ∧
      result.components =
        (if rest.take 2 = ['/', '/'] then [.root] else target.components) ++ Path.steps (encode rest) ∧
      (result.components = target.components ++ Path.steps (encode rest) ↔
        rest.take 2 ≠ ['/', '/'] ∨ target.components = [.root]) := by
  obtain ⟨a, rest, p, hpicked, hleads, hp, hresolve⟩ := exists_picked_resolve read includer hmatch
  obtain ⟨habsolute, hplain⟩ : a.target.isAbsolute = true ∧ Component.up ∉ a.target.components := by
    obtain ⟨e, he, ha⟩ := List.mem_filterMap.mp hpicked.mem
    rw [(alias?_eq_some ha).2]
    exact htargets e he
  obtain ⟨target, htarget, hsteps⟩ := Path.exists_normalize? habsolute hplain
  obtain ⟨p', hp', hrooted, hcomponents⟩ := Alias.components_pathFor? habsolute hleads
  obtain rfl : p = p' := Option.some.inj (hp.symm.trans hp')
  have hclean : Component.up ∉ p.components := by
    rw [hcomponents, List.mem_append, not_or]
    refine ⟨?_, hleads.up_notMem hup⟩
    split
    · simp
    · exact hplain
  obtain ⟨result, hresult, hsame⟩ := Path.exists_normalize? hrooted hclean
  have hsettled : settled p = result := by rw [settled, hresult, Option.getD_some]
  rw [hsettled] at hresolve
  rw [← hsteps, ← hsame] at hcomponents
  refine ⟨a, rest, target, result, hpicked, hleads, htarget, hresolve, hcomponents, ?_⟩
  rw [hcomponents, List.append_cancel_right_eq]
  by_cases hdoubled : rest.take 2 = ['/', '/']
  · simp [hdoubled, eq_comm]
  · simp [hdoubled]

/-- Dots and repeated separators further on do not lead out of the target. -/
theorem dotted_request_below_target :
    let entries := [("\\x\\cba", "/opt/cba")]
    let path := normalize "\\X\\CBA\\.\\addons\\\\main.hpp".toList
    Component.up ∉ Path.steps (encode path) ∧
      ∃ a rest target result, Picked entries path a ∧ a.Leads path rest ∧ a.target.normalize? = some target ∧
        (resolver entries fun _ => .error .notFound).resolve "\\X\\CBA\\.\\addons\\\\main.hpp"
          (.ofText "/ws/init.sqf") = .ok result ∧
        result.components =
          (if rest.take 2 = ['/', '/'] then [.root] else target.components) ++ Path.steps (encode rest) ∧
        (result.components = target.components ++ Path.steps (encode rest) ↔
          rest.take 2 ≠ ['/', '/'] ∨ target.components = [.root]) := by
  intro entries path
  have hup : Component.up ∉ Path.steps (encode path) := by decide +kernel
  refine ⟨hup, aliased_path_below_target_iff entries _ _ _ (by decide +kernel) hup ?_⟩
  exact ⟨⟨"x/cba".toList, .ofText "/opt/cba"⟩, by decide +kernel, "/./addons//main.hpp".toList, "X/CBA".toList,
    by decide +kernel, by decide +kernel, by decide +kernel⟩

/-- With a second separator after the alias the target is left. -/
theorem doubled_separator_leaves_target :
    let entries := [("\\x\\cba", "/opt/cba")]
    Component.up ∉ Path.steps (encode (normalize "\\x\\cba\\\\addons\\main.hpp".toList)) ∧
      (∃ a ∈ configured entries, a.Leads (normalize "\\x\\cba\\\\addons\\main.hpp".toList) "//addons/main.hpp".toList) ∧
      ((resolver entries fun _ => .error .notFound).resolve "\\x\\cba\\\\addons\\main.hpp"
        (.ofText "/ws/init.sqf")).toOption =
        some (.ofText "/addons/main.hpp") ∧
      ¬(Path.ofText "/opt/cba").components <+: (Path.ofText "/addons/main.hpp").components := by
  intro entries
  have hentries : aliases entries = configured entries := List.mergeSort_of_pairwise (by decide +kernel)
  refine ⟨by decide +kernel, ?_, ?_, by decide +kernel⟩
  · exact ⟨⟨"x/cba".toList, .ofText "/opt/cba"⟩, by decide +kernel, "x/cba".toList, by decide +kernel,
      by decide +kernel, by decide +kernel⟩
  · rw [resolve_resolver, hentries]
    decide +kernel

end Include

end SqfIndex
