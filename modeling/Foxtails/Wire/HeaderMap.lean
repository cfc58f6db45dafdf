/-
  The headers of an `http_t` as a bounded map.

  `setHeaders msg hs` is the message after `http_set_header` was called for every header of
  `hs` in turn. Names are compared without regard to case, so the table is a map only as long
  as no two stored names are equal that way (`Distinct`); every call keeps this.

  * `set_refused_iff`: a call is refused exactly when the name is new and the table is full.
  * `set_others`: a call leaves the headers of other names as they are, in their order.
  * `headers_bounded_map`: all of it, for every message built from one without headers.
-/
import Foxtails.Wire.HeaderTable

namespace Foxtails.Wire

open Foxtails.Lib.Scan Foxtails.Lib.Libc

/-- No two names are equal ignoring case. -/
def Distinct (hs : List HttpHeader) : Prop :=
  hs.Pairwise fun g h => strcaseeq g.name h.name = false

/-- The headers that are not called `name`. -/
def others (name : Bytes) (hs : List HttpHeader) : List HttpHeader :=
  hs.filter fun h => !strcaseeq h.name name

/-- The message after setting every header of a list. -/
def setHeaders (msg : Http) (hs : List HttpHeader) : Http :=
  hs.foldl (fun msg h => (httpSetHeader msg h.name h.value).1) msg

theorem setHeaders_headers (msg : Http) (hs : List HttpHeader) :
    (setHeaders msg hs).headers = msg.headers.setAll hs := by
  unfold setHeaders HttpHeaders.setAll
  induction hs generalizing msg with
  | nil => rfl
  | cons h hs ih => exact ih _

/-! ## Distinct names -/

theorem distinct_iff_nodup (hs : List HttpHeader) :
    Distinct hs ↔ (hs.map fun h => h.name.map toLower).Nodup := by
  unfold Distinct List.Nodup
  rw [List.pairwise_map]
  apply List.Pairwise.iff
  intro g h
  rw [← Bool.not_eq_true, strcaseeq_iff]

/-- Which names are distinct does not depend on the values. -/
theorem distinct_congr {hs gs : List HttpHeader} (h : hs.map (·.name) = gs.map (·.name)) :
    Distinct hs ↔ Distinct gs := by
  have hlow := congrArg (List.map (List.map toLower)) h
  rw [List.map_map, List.map_map] at hlow
  rw [distinct_iff_nodup, distinct_iff_nodup]
  exact iff_of_eq (congrArg List.Nodup hlow)

theorem HttpHeaders.set_distinct {t : HttpHeaders} (name value : Bytes)
    (h : Distinct t.items) : Distinct (t.set name value).1.items := by
  by_cases hget : t.get name = none
  · obtain ⟨hroom, hfull⟩ := HttpHeaders.set_of_get_none value hget
    by_cases hlt : t.items.length < httpMaxHeaders
    · rw [(hroom hlt).2]
      unfold Distinct
      rw [List.pairwise_append]
      refine ⟨h, List.pairwise_singleton _ _, ?_⟩
      intro g hg x hx
      rw [List.mem_singleton] at hx
      subst hx
      exact HttpHeaders.get_eq_none_iff.mp hget g hg
    · rw [hfull hlt]
      exact h
  · exact (distinct_congr (HttpHeaders.set_names_of_get value hget)).mpr h

theorem HttpHeaders.setAll_distinct {t : HttpHeaders} (hs : List HttpHeader)
    (h : Distinct t.items) : Distinct (t.setAll hs).items := by
  induction hs generalizing t with
  | nil => exact h
  | cons g hs ih =>
    apply ih
    exact HttpHeaders.set_distinct g.name g.value h

/-! ## One call -/

/-- A call is refused exactly when the name is new and every place is taken. -/
theorem HttpHeaders.set_refused_iff (t : HttpHeaders) (name value : Bytes) :
    (t.set name value).2 = false ↔
      (∀ h ∈ t.items, strcaseeq h.name name = false) ∧ t.items.length = httpMaxHeaders := by
  rw [← HttpHeaders.get_eq_none_iff]
  by_cases hget : t.get name = none
  · obtain ⟨hroom, hfull⟩ := HttpHeaders.set_of_get_none value hget
    by_cases hlt : t.items.length < httpMaxHeaders
    · rw [(hroom hlt).1]
      refine iff_of_false Bool.true_eq_false.mp ?_
      rintro ⟨-, hlen⟩
      omega
    · rw [hfull hlt]
      have hbound := t.bounded
      exact iff_of_true rfl ⟨hget, by omega⟩
  · rw [HttpHeaders.set_stored_of_get hget]
    exact iff_of_false Bool.true_eq_false.mp fun h => hget h.1

/-- A refused call changes nothing. -/
theorem HttpHeaders.set_of_refused {t : HttpHeaders} {name value : Bytes}
    (h : (t.set name value).2 = false) : (t.set name value).1 = t := by
  obtain ⟨hnew, hlen⟩ := (HttpHeaders.set_refused_iff t name value).mp h
  have hget := HttpHeaders.get_eq_none_iff.mpr hnew
  rw [(HttpHeaders.set_of_get_none value hget).2 (by omega)]

theorem overwrite_others (name value : Bytes) (hs : List HttpHeader) :
    others name (overwrite name value hs) = others name hs := by
  induction hs with
  | nil => rfl
  | cons h hs ih =>
    rw [overwrite]
    by_cases hn : strcaseeq h.name name = true
    · rw [if_pos hn]
      simp [others, hn]
    · rw [if_neg hn]
      simpa [others, hn] using ih

/-- The headers of other names stay what they are, in the order they are stored in. -/
theorem HttpHeaders.set_others (t : HttpHeaders) (name value : Bytes) :
    others name (t.set name value).1.items = others name t.items := by
  unfold HttpHeaders.set
  split_ifs
  · exact overwrite_others name value t.items
  · simp [others]
  · rfl

/-! ## Any sequence of calls -/

/-- **The bounded map.** After any calls on a message without headers, the table has at most
    `httpMaxHeaders` names, all distinct; the next call is refused exactly when its name is
    new and the table full, and then changes nothing; otherwise the name reads the new value,
    every other name what it read before, and the other headers keep their order. -/
theorem headers_bounded_map (msg : Http) (hs : List HttpHeader) (name value : Bytes)
    (hempty : msg.headers = .empty) :
    (setHeaders msg hs).headers.items.length ≤ httpMaxHeaders ∧
    Distinct (setHeaders msg hs).headers.items ∧
    ((httpSetHeader (setHeaders msg hs) name value).2 = false ↔
      (∀ h ∈ (setHeaders msg hs).headers.items, strcaseeq h.name name = false) ∧
        (setHeaders msg hs).headers.items.length = httpMaxHeaders) ∧
    ((httpSetHeader (setHeaders msg hs) name value).2 = false →
      (httpSetHeader (setHeaders msg hs) name value).1 = setHeaders msg hs) ∧
    ((httpSetHeader (setHeaders msg hs) name value).2 = true →
      (∀ k, httpGetHeader (httpSetHeader (setHeaders msg hs) name value).1 k =
        if strcaseeq name k then some value else httpGetHeader (setHeaders msg hs) k) ∧
      others name (httpSetHeader (setHeaders msg hs) name value).1.headers.items =
        others name (setHeaders msg hs).headers.items) := by
  have hdistinct : Distinct (setHeaders msg hs).headers.items := by
    rw [setHeaders_headers, hempty]
    apply HttpHeaders.setAll_distinct
    exact List.Pairwise.nil
  generalize setHeaders msg hs = m at hdistinct ⊢
  refine ⟨m.headers.bounded, hdistinct, HttpHeaders.set_refused_iff m.headers name value, ?_, ?_⟩
  · intro hrefused
    have hsame : (m.headers.set name value).1 = m.headers := HttpHeaders.set_of_refused hrefused
    unfold httpSetHeader
    dsimp only
    rw [hsame]
  · intro hstored
    refine ⟨fun k => ?_, HttpHeaders.set_others m.headers name value⟩
    have hget := HttpHeaders.get_set m.headers name value k
    rw [show (m.headers.set name value).2 = true from hstored, Bool.true_and] at hget
    exact hget

/-- Two names that differ only in case share a place. -/
theorem headers_bounded_map_case :
    httpGetHeader (httpSetHeader
      (setHeaders {} [⟨ascii "Host", ascii "a"⟩, ⟨ascii "Accept", ascii "*"⟩])
        (ascii "HOST") (ascii "b")).1 (ascii "host") = some (ascii "b") := by
  obtain ⟨-, -, -, -, hstored⟩ := headers_bounded_map {}
    [⟨ascii "Host", ascii "a"⟩, ⟨ascii "Accept", ascii "*"⟩] (ascii "HOST") (ascii "b") rfl
  rw [(hstored (by decide)).1 (ascii "host")]
  decide

end Foxtails.Wire
