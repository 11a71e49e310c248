import ManPage.Text.Basic

/-! The characters and strings that a page can name, as they are written in HTML, and the entities
that stand in the output. -/

namespace ManPage.Inline

def specialCharacters : List (Text × Text) :=
  [("em", "&mdash;"), ("en", "&ndash;"), ("hy", "-"), ("mi", "&minus;"), ("lq", "&ldquo;"),
    ("rq", "&rdquo;"), ("oq", "&lsquo;"), ("cq", "&rsquo;"), ("aq", "&#39;"), ("dq", "&quot;"),
    ("bu", "&bull;"), ("de", "&deg;"), ("co", "&copy;"), ("rg", "&reg;"), ("tm", "&trade;"),
    ("sc", "&sect;"), ("ps", "&para;"), ("dg", "&dagger;"), ("->", "&rarr;"), ("<-", "&larr;"),
    ("ua", "&uarr;"), ("da", "&darr;"), ("<=", "&le;"), (">=", "&ge;"), ("!=", "&ne;"),
    ("==", "&equiv;"), ("+-", "&plusmn;"), ("mu", "&times;"), ("di", "&divide;"),
    ("12", "&frac12;"), ("14", "&frac14;"), ("34", "&frac34;"), ("ti", "~"), ("ha", "^"),
    ("ga", "\x60"), ("rs", "&#92;"), ("sl", "/"), ("ul", "_"), ("br", "|")].map
    fun (name, glyph) => (name.toList, glyph.toList)

def namedStrings : List (Text × Text) :=
  [("R", "&reg;"), ("Rg", "&reg;"), ("Tm", "&trade;"), ("lq", "&ldquo;"), ("rq", "&rdquo;")].map
    fun (name, glyph) => (name.toList, glyph.toList)

/-- The entities that stand in the output: those of the glyphs, and those of the backslash, the
fixed space and the markup characters. -/
def ownEntities : List Text :=
  ((specialCharacters ++ namedStrings).map Prod.snd).filter (·.head? == some '&') ++
    ["&#92;", "&nbsp;", "&lt;", "&gt;", "&amp;"].map String.toList

end ManPage.Inline
