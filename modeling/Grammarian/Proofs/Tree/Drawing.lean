import Grammarian.Tree.Drawing
import Grammarian.Proofs.Text.Fields
import Grammarian.Proofs.Tree.Queries

/-!
# What a drawing shows

A drawing has one line a node, in the order of a walk. In front of a node stands a pair of characters for every node
that it is under, the root apart, and the pair tells whether that node is a last child; the connector tells it of the
node itself. No text breaks a line, as its line feeds are written as escapes. So the depth, kind and span of every node
can be read off its line, and as the depths of a walk determine its paths, trees with the same drawing differ in the
texts of their nodes only.
-/

namespace Grammarian

namespace Node

variable {n n' x x' : Node} {p p' path : NodePath}

/-! ## The lines of a drawing -/

/-- Whether a path leads to the last child of a node. -/
def isLastAt (n : Node) (p : NodePath) : Bool :=
  (n.parentOf? p).any fun parent => p.getLast?.any (· + 1 = parent.children.length)

/-- The pair of characters in a line for a node above: a bar where there are more children behind that node. -/
def rail (isLast : Bool) : List Char := if isLast then [' ', ' '] else ['│', ' ']

/-- For the nodes on a path, the root apart, whether they are last children. -/
def lastsAt (n : Node) (p : NodePath) : List Bool := (List.range p.length).map fun j => n.isLastAt (p.take (j + 1))

/-- The margin in front of the children of the node at a path. -/
def marginAt (n : Node) (p : NodePath) : List Char := (n.lastsAt p).flatMap rail

/-- The line for the node `x` at a path. -/
def lineAt (n : Node) (p : NodePath) (x : Node) : List Char :=
  if p = [] then '⧉' :: ' ' :: x.label.toList
  else n.marginAt p.dropLast ++ (connector (n.isLastAt p)).toList ++
    ' ' :: (icon x.kind).toList ++ ' ' :: x.label.toList

theorem toList_connector (isLast : Bool) : (connector isLast).toList = [if isLast then '└' else '├', '─'] := by
  cases isLast with
  | true => rfl
  | false => rfl

theorem toList_icon (kind : String) : ∃ c, (icon kind).toList = [c] ∧ c ≠ '\n' := by
  unfold icon
  split
  · exact ⟨'✗', rfl, by decide⟩
  · split
    · exact ⟨'∎', rfl, by decide⟩
    · exact ⟨'•', rfl, by decide⟩

theorem toList_marginUnder (margin : String) (isLast : Bool) :
    (marginUnder margin isLast).toList = margin.toList ++ rail isLast := by
  rw [marginUnder, String.toList_append]
  cases isLast with
  | true => rfl
  | false => rfl

theorem lastsAt_concat (n : Node) (p : NodePath) (i : Nat) :
    n.lastsAt (p ++ [i]) = n.lastsAt p ++ [n.isLastAt (p ++ [i])] := by
  have hfront : ∀ j ∈ List.range p.length, n.isLastAt ((p ++ [i]).take (j + 1)) = n.isLastAt (p.take (j + 1)) := by
    intro j hj
    rw [List.take_append_of_le_length (List.mem_range.1 hj)]
  have hself : (p ++ [i]).take (p.length + 1) = p ++ [i] := List.take_of_length_le (by simp)
  rw [lastsAt, List.length_append, List.length_singleton, List.range_succ, List.map_append,
    List.map_congr_left hfront, List.map_singleton, hself, lastsAt]

/-- The margin of a child is that of its parent and one rail. -/
theorem marginAt_concat (n : Node) (p : NodePath) (i : Nat) :
    n.marginAt (p ++ [i]) = n.marginAt p ++ rail (n.isLastAt (p ++ [i])) := by
  rw [marginAt, lastsAt_concat, List.flatMap_append, List.flatMap_singleton, marginAt]

/-- A child is the last one when there are none behind it. -/
theorem isLastAt_concat {parent child : Node} {front back : List Node} (hparent : n.at? path = some parent)
    (hchildren : parent.children = front ++ child :: back) : n.isLastAt (path ++ [front.length]) = back.isEmpty := by
  have hsteps : NodePath.parent? (path ++ [front.length]) = some path := by
    rw [NodePath.parent?, if_neg (by simp), List.dropLast_concat]
  have hfound : n.parentOf? (path ++ [front.length]) = some parent := by
    rw [parentOf?, hsteps]
    exact hparent
  rw [isLastAt, hfound, Option.any_some, List.getLast?_concat, Option.any_some, hchildren]
  cases back with
  | nil => simp
  | cons c cs => simp

/-- A child is found behind its parent's path. -/
theorem at?_child {parent child : Node} {front back : List Node} (hparent : n.at? path = some parent)
    (hchildren : parent.children = front ++ child :: back) : n.at? (path ++ [front.length]) = some child := by
  have hchild : parent.children[front.length]? = some child := by
    rw [hchildren, List.getElem?_append_right (Nat.le_refl _), Nat.sub_self]
    rfl
  rw [at?_append, hparent, Option.bind_some, at?, hchild]
  rfl

mutual

/-- The lines of a node below the root and of those under it are those of its walk. The margin says where in the tree
`n` the node is. -/
theorem toList_drawing (n : Node) (path : NodePath) (i : Nat) {margin : String}
    (hmargin : margin.toList = n.marginAt path) : (x : Node) → n.at? (path ++ [i]) = some x →
      (drawing margin (n.isLastAt (path ++ [i])) x).toList =
        (x.walkFrom (path ++ [i])).flatMap fun y => n.lineAt y.1 y.2 ++ ['\n']
  | ⟨kind, text, start, stop, children⟩, hx => by
    have hunder : (marginUnder margin (n.isLastAt (path ++ [i]))).toList = n.marginAt (path ++ [i]) := by
      rw [toList_marginUnder, hmargin, marginAt_concat]
    rw [drawing, walkFrom, List.flatMap_cons, String.toList_append,
      toList_drawings n (path ++ [i]) [] hunder children hx rfl]
    simp [lineAt, hmargin]

/-- The drawings of the children are the lines of their walk. -/
theorem toList_drawings (n : Node) (path : NodePath) (front : List Node) {margin : String}
    (hmargin : margin.toList = n.marginAt path) {parent : Node} : (xs : List Node) → n.at? path = some parent →
      parent.children = front ++ xs →
      (drawings margin xs).toList =
        (walkChildren path front.length xs).flatMap fun y => n.lineAt y.1 y.2 ++ ['\n']
  | [], _, _ => rfl
  | x :: xs, hparent, hchildren => by
    have hbehind := toList_drawings n path (front ++ [x]) hmargin xs hparent (by simp [hchildren])
    rw [List.length_append, List.length_singleton] at hbehind
    rw [drawings, walkChildren, List.flatMap_append, String.toList_append, hbehind,
      ← isLastAt_concat hparent hchildren,
      toList_drawing n path front.length hmargin x (at?_child hparent hchildren)]

end

/-- A drawing is the lines of a walk. -/
theorem toList_draw (n : Node) : n.draw.toList = n.walk.flatMap fun y => n.lineAt y.1 y.2 ++ ['\n'] := by
  have hmargin : "".toList = n.marginAt [] := rfl
  have hbelow := toList_drawings n [] [] hmargin n.children rfl rfl
  rw [walk_eq, List.flatMap_cons, draw, String.toList_append, hbelow]
  simp [lineAt]

/-! ## Lines one by one -/

/-- A label is kind, span and shortened text. -/
theorem toList_label (x : Node) : x.label.toList = x.kind.toList ++ ' ' :: (Nat.toDigits 10 x.start ++
    '.' :: '.' :: (Nat.toDigits 10 x.stop ++ ' ' :: shortened (Text.visible x.text.toList))) := by
  simp [label]

/-- Shortening adds no line feed. -/
theorem lineFeed_not_mem_shortened {cs : List Char} (h : '\n' ∉ cs) : '\n' ∉ shortened cs := by
  unfold shortened
  split
  · have htake : '\n' ∉ cs.take labelLength := fun hmem => h (List.mem_of_mem_take hmem)
    simp [htake]
  · exact h

/-- No margin has a line feed. -/
theorem lineFeed_not_mem_marginAt (n : Node) (p : NodePath) : '\n' ∉ n.marginAt p := by
  have hrail : ∀ isLast, '\n' ∉ rail isLast := by decide
  simp [marginAt, hrail]

/-- A line is broken by no text. -/
theorem lineFeed_not_mem_lineAt (n : Node) (p : NodePath) (h : '\n' ∉ x.kind.toList) : '\n' ∉ n.lineAt p x := by
  have hlabel : '\n' ∉ x.label.toList := by
    have hdigits := Text.not_mem_toDigits (show '\n'.isDigit = false by decide)
    have hshown := lineFeed_not_mem_shortened (Text.lineFeed_not_mem_visible x.text.toList)
    simp [toList_label, h, hdigits, hshown]
  unfold lineAt
  split
  · simp [hlabel]
  · obtain ⟨c, hicon, hc⟩ := toList_icon x.kind
    have hconnector : ∀ isLast, '\n' ∉ (connector isLast).toList := by decide
    simp [lineFeed_not_mem_marginAt, hconnector, hicon, hlabel, hc.symm]

/-- Where no kind breaks a line, a drawing has one line for every node of a walk. -/
theorem splitOn_draw (h : ∀ y ∈ n.nodes, '\n' ∉ y.kind.toList) :
    n.draw.toList.splitOn '\n' = (n.walk.map fun y => n.lineAt y.1 y.2) ++ [[]] := by
  have hlines : ∀ l ∈ n.walk.map fun y => n.lineAt y.1 y.2, '\n' ∉ l := by
    intro l hl
    obtain ⟨y, hy, rfl⟩ := List.mem_map.1 hl
    exact lineFeed_not_mem_lineAt n y.1 (h y.2 (List.mem_map_of_mem hy))
  rw [← Text.splitOn_lines hlines, List.flatMap_map, toList_draw]

@[simp]
theorem length_rail (isLast : Bool) : (rail isLast).length = 2 := by
  cases isLast with
  | true => rfl
  | false => rfl

/-- The pairs of a margin, one by one. -/
theorem take_drop_rails {lasts : List Bool} {j : Nat} (h : j < lasts.length) :
    ((lasts.flatMap rail).drop (2 * j)).take 2 = rail lasts[j] := by
  induction lasts generalizing j with
  | nil => simp at h
  | cons isLast lasts ih =>
    cases j with
    | zero =>
      rw [List.flatMap_cons, Nat.mul_zero, List.drop_zero, List.take_left' (length_rail isLast),
        List.getElem_cons_zero]
    | succ j =>
      rw [List.flatMap_cons, Nat.mul_succ, Nat.add_comm, ← List.drop_drop, List.drop_left' (length_rail isLast),
        ih (Nat.lt_of_succ_lt_succ h), List.getElem_cons_succ]

/-- Every rail is two characters wide. -/
theorem length_rails (lasts : List Bool) : (lasts.flatMap rail).length = 2 * lasts.length := by
  simp [List.length_flatMap, Nat.mul_comm]

/-- A node that is `p.length` levels down has two characters of margin for each level above its own, and each pair
tells of the node on that level. -/
theorem marginAt_dropLast (n : Node) (p : NodePath) : (n.marginAt p.dropLast).length = 2 * (p.length - 1) ∧
    ∀ j, 0 < j → j < p.length →
      ((n.marginAt p.dropLast).drop (2 * (j - 1))).take 2 = rail (n.isLastAt (p.take j)) := by
  have hlength : (n.lastsAt p.dropLast).length = p.length - 1 := by simp [lastsAt]
  refine ⟨by rw [marginAt, length_rails, hlength], fun j hpos hj => ?_⟩
  obtain ⟨k, rfl⟩ : ∃ k, j = k + 1 := ⟨j - 1, by omega⟩
  have hk : k < (n.lastsAt p.dropLast).length := by omega
  have htake : p.dropLast.take (k + 1) = p.take (k + 1) := by
    rw [List.dropLast_eq_take, List.take_take, Nat.min_eq_left (by omega)]
  rw [marginAt, Nat.add_sub_cancel, take_drop_rails hk]
  simp [lastsAt, htake]

/-! ## Reading lines -/

/-- A label tells kind and span, if the kind has no space. -/
theorem eq_of_label (hx : ' ' ∉ x.kind.toList) (hx' : ' ' ∉ x'.kind.toList)
    (h : x.label.toList = x'.label.toList) : x.kind = x'.kind ∧ x.start = x'.start ∧ x.stop = x'.stop := by
  have hspace := Text.not_mem_toDigits (show ' '.isDigit = false by decide)
  have hdot := Text.not_mem_toDigits (show '.'.isDigit = false by decide)
  rw [toList_label, toList_label] at h
  obtain ⟨hkind, h⟩ := Text.eq_of_first_separator h hx hx'
  obtain ⟨hstart, h⟩ := Text.eq_of_first_separator h (hdot _) (hdot _)
  obtain ⟨hstop, -⟩ := Text.eq_of_first_separator (List.cons.inj h).2 (hspace _) (hspace _)
  exact ⟨String.toList_inj.1 hkind, Text.toDigits_inj hstart, Text.toDigits_inj hstop⟩

/-- A margin ends where the connector begins. -/
theorem eq_of_rails {lasts lasts' : List Bool} {isLast isLast' : Bool} {back back' : List Char}
    (h : lasts.flatMap rail ++ ((connector isLast).toList ++ back) =
      lasts'.flatMap rail ++ ((connector isLast').toList ++ back')) : lasts = lasts' ∧ back = back' := by
  simp only [toList_connector] at h
  induction lasts generalizing lasts' with
  | nil =>
    cases lasts' with
    | nil => exact ⟨rfl, by simpa using (List.cons.inj h).2⟩
    | cons b lasts' => cases b <;> cases isLast <;> simp [rail] at h
  | cons b lasts ih =>
    cases lasts' with
    | nil => cases b <;> cases isLast' <;> simp [rail] at h
    | cons b' lasts' =>
      rw [List.flatMap_cons, List.flatMap_cons, List.append_assoc, List.append_assoc] at h
      obtain ⟨hrail, h⟩ := List.append_inj h ((length_rail b).trans (length_rail b').symm)
      obtain ⟨rfl, hback⟩ := ih h
      have hsame : b = b' := by cases b <;> cases b' <;> simp [rail] at hrail ⊢
      exact ⟨by rw [hsame], hback⟩

/-- Only the line of a root begins with its icon. -/
theorem root_ne_rails (lasts : List Bool) (isLast : Bool) (back back' : List Char) :
    '⧉' :: back ≠ lasts.flatMap rail ++ ((connector isLast).toList ++ back') := by
  rw [toList_connector]
  cases lasts with
  | nil => cases isLast <;> simp
  | cons b lasts => cases b <;> simp [rail]

/-- A line tells the depth, kind and span of its node, if the kind has no space. -/
theorem eq_of_lineAt (hx : ' ' ∉ x.kind.toList) (hx' : ' ' ∉ x'.kind.toList) (h : n.lineAt p x = n'.lineAt p' x') :
    p.length = p'.length ∧ x.kind = x'.kind ∧ x.start = x'.start ∧ x.stop = x'.stop := by
  obtain ⟨c, hicon, -⟩ := toList_icon x.kind
  obtain ⟨c', hicon', -⟩ := toList_icon x'.kind
  unfold lineAt marginAt at h
  rw [hicon, hicon'] at h
  simp only [List.append_assoc] at h
  by_cases hp : p = []
  · by_cases hp' : p' = []
    · rw [if_pos hp, if_pos hp'] at h
      exact ⟨by rw [hp, hp'], eq_of_label hx hx' (by simpa using h)⟩
    · rw [if_pos hp, if_neg hp'] at h
      exact absurd h (root_ne_rails _ _ _ _)
  · by_cases hp' : p' = []
    · rw [if_neg hp, if_pos hp'] at h
      exact absurd h.symm (root_ne_rails _ _ _ _)
    · rw [if_neg hp, if_neg hp'] at h
      obtain ⟨hlasts, hback⟩ := eq_of_rails h
      have hlength : p.length - 1 = p'.length - 1 := by simpa [lastsAt] using congrArg List.length hlasts
      have hpos := List.length_pos_iff.2 hp
      have hpos' := List.length_pos_iff.2 hp'
      exact ⟨by omega, eq_of_label hx hx' (by simpa using congrArg (List.drop 3) hback)⟩

/-! ## The shape of a tree from the depths of its walk -/

/-- What the line of a node tells: the depth, the kind and the span. -/
def depthMark (y : NodePath × Node) : Nat × String × Nat × Nat := (y.1.length, y.2.kind, y.2.start, y.2.stop)

/-- A node with its path, but for its text and what is under it. -/
def pathMark (y : NodePath × Node) : NodePath × String × Nat × Nat := (y.1, y.2.kind, y.2.start, y.2.stop)

/-- A tree but for the texts of its nodes: the paths, kinds and spans. -/
def layout (n : Node) : List (NodePath × String × Nat × Nat) := n.walk.map pathMark

/-- The first of the marks is no deeper than this. -/
def Rises (depth : Nat) (marks : List (Nat × String × Nat × Nat)) : Prop := ∀ m ∈ marks.head?, m.1 ≤ depth

theorem Rises.walkChildren {marks : List (Nat × String × Nat × Nat)} (h : Rises path.length marks) (index : Nat)
    (xs : List Node) : Rises (path.length + 1) ((walkChildren path index xs).map depthMark ++ marks) := by
  cases xs with
  | nil => exact fun m hm => (h m hm).trans (Nat.le_succ _)
  | cons x xs =>
    obtain ⟨kind, text, start, stop, children⟩ := x
    rintro m ⟨⟩
    simp [depthMark]

/-- Children are deeper than what is behind them. -/
theorem not_rises_walkChildren (path : NodePath) (index : Nat) (x : Node) (xs : List Node)
    (marks : List (Nat × String × Nat × Nat)) :
    ¬ Rises path.length ((Node.walkChildren path index (x :: xs)).map depthMark ++ marks) := by
  obtain ⟨kind, text, start, stop, children⟩ := x
  intro h
  have hle : (path ++ [index]).length ≤ path.length := h _ rfl
  rw [List.length_append, List.length_singleton] at hle
  omega

mutual

/-- The marks of a walk, whatever is listed behind it that is no deeper than its root, determine the paths, kinds and
spans. -/
theorem map_pathMark_walkFrom (path : NodePath) {marks marks' : List (Nat × String × Nat × Nat)}
    (hmarks : Rises path.length marks) (hmarks' : Rises path.length marks') : (x x' : Node) →
      (x.walkFrom path).map depthMark ++ marks = (x'.walkFrom path).map depthMark ++ marks' →
      (x.walkFrom path).map pathMark = (x'.walkFrom path).map pathMark ∧ marks = marks'
  | ⟨kind, text, start, stop, children⟩, ⟨kind', text', start', stop', children'⟩, h => by
    rw [walkFrom, walkFrom, List.map_cons, List.map_cons, List.cons_append, List.cons_append] at h
    obtain ⟨hmark, hchildren⟩ := List.cons.inj h
    obtain ⟨hbelow, hbehind⟩ := map_pathMark_walkChildren path 0 hmarks hmarks' children children' hchildren
    simp only [depthMark, Prod.mk.injEq, true_and] at hmark
    obtain ⟨rfl, rfl, rfl⟩ := hmark
    rw [walkFrom, walkFrom, List.map_cons, List.map_cons, hbelow]
    exact ⟨rfl, hbehind⟩

theorem map_pathMark_walkChildren (path : NodePath) (index : Nat) {marks marks' : List (Nat × String × Nat × Nat)}
    (hmarks : Rises path.length marks) (hmarks' : Rises path.length marks') : (xs xs' : List Node) →
      (walkChildren path index xs).map depthMark ++ marks = (walkChildren path index xs').map depthMark ++ marks' →
      (walkChildren path index xs).map pathMark = (walkChildren path index xs').map pathMark ∧ marks = marks'
  | [], [], h => ⟨rfl, h⟩
  | [], x' :: xs', h => by
    have hdeep : marks = (walkChildren path index (x' :: xs')).map depthMark ++ marks' := h
    rw [hdeep] at hmarks
    exact absurd hmarks (not_rises_walkChildren path index x' xs' marks')
  | x :: xs, [], h => by
    have hdeep : (walkChildren path index (x :: xs)).map depthMark ++ marks = marks' := h
    rw [← hdeep] at hmarks'
    exact absurd hmarks' (not_rises_walkChildren path index x xs marks)
  | x :: xs, x' :: xs', h => by
    rw [walkChildren, walkChildren, List.map_append, List.map_append, List.append_assoc, List.append_assoc] at h
    have hlength : (path ++ [index]).length = path.length + 1 := by simp
    obtain ⟨hfirst, hrest⟩ := map_pathMark_walkFrom (path ++ [index])
      (hlength ▸ hmarks.walkChildren (index + 1) xs)
      (hlength ▸ hmarks'.walkChildren (index + 1) xs') x x' h
    obtain ⟨hothers, hbehind⟩ := map_pathMark_walkChildren path (index + 1) hmarks hmarks' xs xs' hrest
    rw [walkChildren, walkChildren, List.map_append, List.map_append, hfirst, hothers]
    exact ⟨rfl, hbehind⟩

end

/-- Lines that are the same tell the same. -/
theorem map_depthMark_of_lines {ys ys' : List (NodePath × Node)} (hys : ∀ y ∈ ys, ' ' ∉ y.2.kind.toList)
    (hys' : ∀ y ∈ ys', ' ' ∉ y.2.kind.toList)
    (h : (ys.map fun y => n.lineAt y.1 y.2) = ys'.map fun y => n'.lineAt y.1 y.2) :
    ys.map depthMark = ys'.map depthMark := by
  induction ys generalizing ys' with
  | nil =>
    obtain rfl := List.map_eq_nil_iff.1 h.symm
    rfl
  | cons y ys ih =>
    cases ys' with
    | nil => cases h
    | cons y' ys' =>
      rw [List.forall_mem_cons] at hys hys'
      obtain ⟨hline, hlines⟩ := List.cons.inj h
      obtain ⟨hdepth, hkind, hstart, hstop⟩ := eq_of_lineAt hys.1 hys'.1 hline
      rw [List.map_cons, List.map_cons, ih hys.2 hys'.2 hlines, depthMark, depthMark, hdepth, hkind, hstart, hstop]

/-- **A drawing shows the tree.** Where no kind has a line feed, the lines of a drawing are those of the nodes, in the
order of a walk. The line of a node below the root begins with a pair of characters for every node it is under, the
root apart: blank if that node is a last child, a bar if it is not. Behind them stand the connector, which tells the
same of the node itself, and its icon, kind and span. Where no kind has a space either, trees with the same drawing
have the same paths, kinds and spans. -/
theorem drawing_shows_tree (n : Node) (hlines : ∀ y ∈ n.nodes, '\n' ∉ y.kind.toList) :
    n.draw.toList.splitOn '\n' = (n.walk.map fun y => n.lineAt y.1 y.2) ++ [[]] ∧
    (∀ p x, p ≠ [] → ∃ margin shown,
      n.lineAt p x = margin ++ ((if n.isLastAt p then "└─" else "├─") ++ " " ++ icon x.kind ++ " " ++ x.kind ++ " " ++
        toString x.start ++ ".." ++ toString x.stop ++ " ").toList ++ shown ∧
      margin.length = 2 * (p.length - 1) ∧
      ∀ j, 0 < j → j < p.length →
        (margin.drop (2 * (j - 1))).take 2 = if n.isLastAt (p.take j) then [' ', ' '] else ['│', ' ']) ∧
    ∀ n' : Node, (∀ y ∈ n'.nodes, '\n' ∉ y.kind.toList) → (∀ y ∈ n.nodes, ' ' ∉ y.kind.toList) →
      (∀ y ∈ n'.nodes, ' ' ∉ y.kind.toList) → n.draw = n'.draw → n.layout = n'.layout := by
  refine ⟨splitOn_draw hlines, fun p x hp => ?_, fun n' hlines' hspaces hspaces' hdraw => ?_⟩
  · obtain ⟨hlength, hpairs⟩ := n.marginAt_dropLast p
    refine ⟨n.marginAt p.dropLast, shortened (Text.visible x.text.toList), ?_, hlength, hpairs⟩
    rw [lineAt, if_neg hp]
    simp [label, connector]
  · have hsplit := congrArg (fun s : String => s.toList.splitOn '\n') hdraw
    simp only [splitOn_draw hlines, splitOn_draw hlines'] at hsplit
    have hmarks : n.walk.map depthMark = n'.walk.map depthMark :=
      map_depthMark_of_lines (fun y hy => hspaces y.2 (List.mem_map_of_mem hy))
        (fun y hy => hspaces' y.2 (List.mem_map_of_mem hy)) (List.append_cancel_right hsplit)
    have hend : Rises 0 [] := nofun
    exact (map_pathMark_walkFrom [] hend hend n n' (congrArg (· ++ []) hmarks)).1

/-- What is left of a list of pairs behind a line feed: more than a line shows. -/
def leftOver (last : Char) : String := String.ofList ('\n' :: (List.replicate 30 'c' ++ [last]))

/-- A list of pairs with a syntax error behind the first. -/
def brokenList (last : Char) : Node :=
  ⟨"List", "a=b;" ++ leftOver last, 0, 36,
    [⟨"Pair", "a=b;", 0, 4, [⟨"Word", "a", 0, 1, []⟩, ⟨"Word", "b", 2, 3, []⟩]⟩,
      ⟨"SyntaxError", leftOver last, 4, 36, []⟩]⟩

/-- Two such lists, whose texts differ behind what is shown of them. -/
theorem brokenList_shown : (∀ y ∈ (brokenList 'd').nodes, '\n' ∉ y.kind.toList ∧ ' ' ∉ y.kind.toList) ∧
    (brokenList 'd').draw =
      "⧉ List 0..36 \"a=b;\\nccccccccccccccccccccccc...\n" ++
      "├─ • Pair 0..4 \"a=b;\"\n" ++
      "│ ├─ • Word 0..1 \"a\"\n" ++
      "│ └─ • Word 2..3 \"b\"\n" ++
      "└─ ✗ SyntaxError 4..36 \"\\nccccccccccccccccccccccccccc...\n" ∧
    (brokenList 'd').draw.toList.splitOn '\n' =
      ((brokenList 'd').walk.map fun y => (brokenList 'd').lineAt y.1 y.2) ++ [[]] ∧
    (brokenList 'd').draw = (brokenList 'e').draw ∧ (brokenList 'd').layout = (brokenList 'e').layout := by
  have hkinds : ∀ last ∈ ['d', 'e'], ∀ y ∈ (brokenList last).nodes, '\n' ∉ y.kind.toList ∧ ' ' ∉ y.kind.toList := by
    decide +kernel
  have hd := hkinds 'd' (by simp)
  have he := hkinds 'e' (by simp)
  obtain ⟨hsplit, -, hsame⟩ := drawing_shows_tree (brokenList 'd') fun y hy => (hd y hy).1
  have hdraw : (brokenList 'd').draw = (brokenList 'e').draw := by decide +kernel
  exact ⟨hd, by decide +kernel, hsplit, hdraw, hsame (brokenList 'e') (fun y hy => (he y hy).1)
    (fun y hy => (hd y hy).2) (fun y hy => (he y hy).2) hdraw⟩

end Node

end Grammarian
